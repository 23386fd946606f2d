/-
# How much an allocation can take

The allocation takes the free entries one by one, and it runs to its end when there
are enough of them. A link holds twelve bits, so taking cluster 4096 behind another one
stores 0 in that one's entry, which frees it again: such a table supplies one cluster
more than it has free entries.

An allocation that runs to its end changes the loaded bytes of the table, unless it
takes no cluster, or none whose entry begins there, or is undone by that one link.
-/

import MasterOS.Fat.Alloc
import Mathlib.Order.Interval.Finset.Nat

namespace MasterOS.Fat

open MasterOS.Device MasterOS.Device.Prog MasterOS.Math

/-! ## Counting -/

/-- The clusters the search goes through that a table marks free. -/
def freeBelow (total : ℕ) (next : ℕ → ℕ) : Finset ℕ :=
  (Finset.Ico 2 (total + 2)).filter fun c => next c = 0

theorem mem_freeBelow {total : ℕ} {next : ℕ → ℕ} {c : ℕ} :
    c ∈ freeBelow total next ↔ (2 ≤ c ∧ c < total + 2) ∧ next c = 0 := by
  rw [freeBelow, Finset.mem_filter, Finset.mem_Ico]

/-- The number of clusters a table supplies behind `prev`: its free entries, and one
more where cluster 4096 will be linked behind another cluster. -/
def capacity (total prev : ℕ) (next : ℕ → ℕ) : ℕ :=
  (freeBelow total next).card +
    if 4096 ∈ freeBelow total next ∧ (prev ≠ 0 ∨ ∃ x ∈ freeBelow total next, x < 4096) then 1
    else 0

theorem capacity_pos {total prev c : ℕ} {next : ℕ → ℕ} (h : c ∈ freeBelow total next) :
    0 < capacity total prev next := by
  have hpos := Finset.card_pos.mpr ⟨c, h⟩
  unfold capacity
  omega

section Take

variable {total prev c : ℕ} {fatBuf : FatBuf} (hfind : fatFindFreeCluster fatBuf total = c)
  (hne : c ≠ 0)
  (hprev : prev ≠ 0 → 2 ≤ prev ∧ prev < total + 2 ∧ fatNextCluster fatBuf prev ≠ 0)
include hfind hne hprev

/-- Taking a cluster other than 4096 removes it from the free ones. -/
theorem freeBelow_takeCluster (htotal : total ≤ 6144) (h4096 : c = 4096 → prev = 0) :
    freeBelow total (fatNextCluster (takeCluster fatBuf prev c)) =
      (freeBelow total (fatNextCluster fatBuf)).erase c := by
  obtain ⟨h2, hlt, hfree, -⟩ := fatFindFreeCluster_pos hfind hne
  ext x
  rw [Finset.mem_erase, mem_freeBelow, mem_freeBelow, fatNextCluster_takeCluster]
  by_cases hx : x = c
  · simp [hx]
  · rw [if_neg hx]
    by_cases hlink : prev ≠ 0 ∧ x = prev
    · rw [if_pos hlink]
      have hused := (hprev hlink.1).2.2
      rw [← hlink.2] at hused
      constructor
      · rintro ⟨-, hzero⟩
        omega
      · rintro ⟨-, -, hzero⟩
        exact absurd hzero hused
    · rw [if_neg hlink]
      simp [hx]

/-- Taking cluster 4096 behind another one frees that one. -/
theorem freeBelow_takeCluster_4096 (h4096 : c = 4096) (hp : prev ≠ 0) :
    freeBelow total (fatNextCluster (takeCluster fatBuf prev c)) =
      insert prev ((freeBelow total (fatNextCluster fatBuf)).erase c) := by
  obtain ⟨h2, hlt, hfree, -⟩ := fatFindFreeCluster_pos hfind hne
  obtain ⟨hp2, hplt, hused⟩ := hprev hp
  ext x
  rw [Finset.mem_insert, Finset.mem_erase, mem_freeBelow, mem_freeBelow,
    fatNextCluster_takeCluster]
  by_cases hx : x = c
  · have hpc : c ≠ prev := fun heq => hused (heq ▸ hfree)
    simp [hx, hpc]
  · rw [if_neg hx]
    by_cases hxp : x = prev
    · rw [if_pos ⟨hp, hxp⟩, h4096, hxp]
      simp [hp2, hplt]
    · rw [if_neg fun h => hxp h.2]
      simp [hx, hxp]

/-- Taking a cluster uses up one of the capacity. -/
theorem capacity_takeCluster (htotal : total ≤ 6144) :
    capacity total c (fatNextCluster (takeCluster fatBuf prev c)) + 1 =
      capacity total prev (fatNextCluster fatBuf) := by
  obtain ⟨h2, hlt, hfree, hfirst⟩ := fatFindFreeCluster_pos hfind hne
  have hmem : c ∈ freeBelow total (fatNextCluster fatBuf) := mem_freeBelow.mpr ⟨⟨h2, hlt⟩, hfree⟩
  have hpos := Finset.card_pos.mpr ⟨c, hmem⟩
  -- no free cluster lies below the one found
  have hleast {x : ℕ} (hx : x ∈ freeBelow total (fatNextCluster fatBuf)) : c ≤ x := by
    obtain ⟨⟨hx2, -⟩, hzero⟩ := mem_freeBelow.mp hx
    by_contra hlt'
    exact hfirst x hx2 (by omega) hzero
  by_cases h4096 : c = 4096
  · by_cases hp : prev = 0
    · have hnone : ¬ (4096 ∈ freeBelow total (fatNextCluster fatBuf) ∧
          (prev ≠ 0 ∨ ∃ x ∈ freeBelow total (fatNextCluster fatBuf), x < 4096)) := by
        rintro ⟨-, hp' | ⟨x, hx, hlt'⟩⟩
        · exact hp' hp
        · have := hleast hx
          omega
      unfold capacity
      rw [freeBelow_takeCluster hfind hne hprev htotal fun _ => hp, if_neg hnone,
        Finset.card_erase_of_mem hmem, if_neg (by simp [h4096])]
      omega
    · have hused := (hprev hp).2.2
      have hnotMem : prev ∉ (freeBelow total (fatNextCluster fatBuf)).erase c := fun hin =>
        hused (mem_freeBelow.mp (Finset.mem_of_mem_erase hin)).2
      have hpc : prev ≠ c := fun heq => hused (heq ▸ hfree)
      have hgone : 4096 ∉ insert prev ((freeBelow total (fatNextCluster fatBuf)).erase c) := by
        rw [← h4096, Finset.mem_insert, not_or]
        exact ⟨Ne.symm hpc, Finset.notMem_erase c _⟩
      unfold capacity
      rw [freeBelow_takeCluster_4096 hfind hne hprev h4096 hp,
        Finset.card_insert_of_notMem hnotMem, Finset.card_erase_of_mem hmem,
        if_neg fun h => hgone h.1, if_pos ⟨h4096 ▸ hmem, Or.inl hp⟩]
      omega
  · have hsame : (4096 ∈ (freeBelow total (fatNextCluster fatBuf)).erase c ∧
        (c ≠ 0 ∨ ∃ x ∈ (freeBelow total (fatNextCluster fatBuf)).erase c, x < 4096)) ↔
        (4096 ∈ freeBelow total (fatNextCluster fatBuf) ∧
          (prev ≠ 0 ∨ ∃ x ∈ freeBelow total (fatNextCluster fatBuf), x < 4096)) := by
      rw [Finset.mem_erase]
      constructor
      · rintro ⟨⟨-, hin⟩, -⟩
        have := hleast hin
        exact ⟨hin, Or.inr ⟨c, hmem, by omega⟩⟩
      · rintro ⟨hin, -⟩
        exact ⟨⟨Ne.symm h4096, hin⟩, Or.inl hne⟩
    unfold capacity
    rw [freeBelow_takeCluster hfind hne hprev htotal fun h => absurd h h4096,
      Finset.card_erase_of_mem hmem]
    simp only [hsame]
    omega

end Take

/-- **An allocation runs to its end exactly when the table supplies it.** -/
theorem complete_iff_le_capacity {total n prev : ℕ} {fatBuf : FatBuf} {r : Chained}
    (htotal : total ≤ 6144)
    (hprev : prev ≠ 0 → 2 ≤ prev ∧ prev < total + 2 ∧ fatNextCluster fatBuf prev ≠ 0)
    (halloc : allocChain total n prev fatBuf = .ok r) :
    r.complete = true ↔ n ≤ capacity total prev (fatNextCluster fatBuf) := by
  induction n generalizing prev fatBuf r with
  | zero =>
      injection halloc with halloc
      subst halloc
      simp
  | succ n ih =>
      rcases allocChain_succ_eq_ok halloc with ⟨hfind, rfl⟩ | ⟨c, rest, hfind, hne, hrest, rfl⟩
      · have hempty : freeBelow total (fatNextCluster fatBuf) = ∅ := by
          apply Finset.eq_empty_of_forall_notMem
          intro x hx
          obtain ⟨⟨h2, hlt⟩, hzero⟩ := mem_freeBelow.mp hx
          exact fatFindFreeCluster_eq_zero_iff.mp hfind x h2 hlt hzero
        simp [capacity, hempty]
      · obtain ⟨h2, hlt, -, -⟩ := fatFindFreeCluster_pos hfind hne
        have hself : fatNextCluster (takeCluster fatBuf prev c) c ≠ 0 := by
          rw [fatNextCluster_takeCluster, if_pos rfl]
          decide
        have htail := ih (fun _ => ⟨h2, hlt, hself⟩) hrest
        rw [← capacity_takeCluster hfind hne hprev htotal]
        exact htail.trans Nat.succ_le_succ_iff.symm

/-! ## The loaded bytes -/

/-- The free clusters whose entries begin in the first `bytes` bytes of a table. -/
def freeTouching (bytes total : ℕ) (next : ℕ → ℕ) : Finset ℕ :=
  (freeBelow total next).filter fun c => c + c / 2 < bytes

theorem mem_freeTouching {bytes total : ℕ} {next : ℕ → ℕ} {c : ℕ} :
    c ∈ freeTouching bytes total next ↔
      ((2 ≤ c ∧ c < total + 2) ∧ next c = 0) ∧ c + c / 2 < bytes := by
  rw [freeTouching, Finset.mem_filter, mem_freeBelow]

/-- An allocation that takes only clusters whose entries begin further on keeps the
first bytes of the table. -/
theorem allocChain_keeps_low {bytes total n prev : ℕ} {fatBuf : FatBuf} {r : Chained}
    (hfree : freeTouching bytes total (fatNextCluster fatBuf) = ∅)
    (hprev : prev ≠ 0 → bytes ≤ prev + prev / 2)
    (halloc : allocChain total n prev fatBuf = .ok r) {o : ℕ} (ho : o < bytes) :
    r.fatBuf o = fatBuf o := by
  induction n generalizing prev fatBuf r with
  | zero =>
      injection halloc with halloc
      rw [← halloc]
  | succ n ih =>
      rcases allocChain_succ_eq_ok halloc with ⟨-, rfl⟩ | ⟨c, rest, hfind, hne, hrest, rfl⟩
      · rfl
      · obtain ⟨h2, hlt, hzero, -⟩ := fatFindFreeCluster_pos hfind hne
        have hhigh {x : ℕ} (hx : (2 ≤ x ∧ x < total + 2) ∧ fatNextCluster fatBuf x = 0) :
            bytes ≤ x + x / 2 := by
          by_contra hlow
          have hmem := mem_freeTouching.mpr ⟨hx, not_le.mp hlow⟩
          rw [hfree] at hmem
          exact absurd hmem (Finset.notMem_empty x)
        have hc := hhigh ⟨⟨h2, hlt⟩, hzero⟩
        have hfree' : freeTouching bytes total (fatNextCluster (takeCluster fatBuf prev c)) = ∅ := by
          apply Finset.eq_empty_of_forall_notMem
          intro x hx
          obtain ⟨⟨hrange, hx0⟩, hlow⟩ := mem_freeTouching.mp hx
          rw [fatNextCluster_takeCluster] at hx0
          split_ifs at hx0 with hxc hlink
          · have := hprev hlink.1
            omega
          · have := hhigh ⟨hrange, hx0⟩
            omega
        show rest.fatBuf o = fatBuf o
        rw [ih hfree' (fun _ => hc) hrest, takeCluster, fatSetCluster_of_ne _ (by omega) (by omega)]
        split_ifs with hp
        · have := hprev hp
          rw [fatSetCluster_of_ne _ (by omega) (by omega)]
        · rfl

/-- The entry that a further allocation leaves in the cluster it links behind: the
number of the next cluster, unless that is cluster 4096. -/
theorem allocChain_link {total n c : ℕ} {fatBuf : FatBuf} {r : Chained} (htotal : total ≤ 6144)
    (hc : c ≠ 0) (hself : fatNextCluster fatBuf c ≠ 0)
    (halloc : allocChain total (n + 1) c fatBuf = .ok r) (hdone : r.complete = true)
    (h4096 : fatFindFreeCluster fatBuf total ≠ 4096) :
    fatFindFreeCluster fatBuf total ≠ 0 ∧
      fatNextCluster r.fatBuf c = fatFindFreeCluster fatBuf total % 4096 ∧
      fatFindFreeCluster fatBuf total % 4096 ≠ 0 := by
  rcases allocChain_succ_eq_ok halloc with ⟨-, rfl⟩ | ⟨x, rest, rfl, hne, hrest, rfl⟩
  · exact absurd hdone (by simp)
  · obtain ⟨h2, hlt, hzero, -⟩ := fatFindFreeCluster_pos rfl hne
    set x := fatFindFreeCluster fatBuf total with hx
    have hnot : x % 4096 ≠ 0 := by omega
    have hcx : c ≠ x := fun heq => hself (heq ▸ hzero)
    have hentry : fatNextCluster (takeCluster fatBuf c x) c = x % 4096 := by
      rw [fatNextCluster_takeCluster, if_neg hcx, if_pos ⟨hc, rfl⟩]
    have hlater : c ∉ rest.clusters := by
      intro hmem
      obtain ⟨-, -, hfree | heq⟩ := allocChain_mem hrest hmem
      · rw [hentry] at hfree
        exact hnot hfree
      · exact hcx heq
    refine ⟨hne, ?_, hnot⟩
    show fatNextCluster rest.fatBuf c = x % 4096
    rw [allocChain_other hrest hlater fun _ => hcx, hentry]

/-- A table with another value in an entry that lies in the first bytes differs there. -/
theorem differs_of_entry {bytes c : ℕ} {b b' : FatBuf} (hc : c + c / 2 + 1 < bytes)
    (hentry : fatNextCluster b' c ≠ fatNextCluster b c) : ∃ o < bytes, b' o ≠ b o := by
  by_contra hsame
  push Not at hsame
  exact hentry (fatNextCluster_congr (hsame _ (by omega)) (hsame _ hc))

/-- So does a table with the end mark or the next number in an entry that was free and
begins in the last of these bytes. -/
theorem differs_of_half {bytes c v : ℕ} {b b' : FatBuf} (hc : c + c / 2 < bytes)
    (hzero : fatNextCluster b c = 0) (hentry : fatNextCluster b' c = v)
    (hv : v % 16 ≠ 0) : ∃ o < bytes, b' o ≠ b o := by
  refine ⟨c + c / 2, hc, fun heq => ?_⟩
  rcases Nat.mod_two_eq_zero_or_one c with hp | hp
  · rw [fatNextCluster_even b hp] at hzero
    rw [fatNextCluster_even b' hp, heq] at hentry
    omega
  · rw [fatNextCluster_odd b hp] at hzero
    rw [fatNextCluster_odd b' hp, heq] at hentry
    omega

/-- The first free cluster stays the lowest: once it is taken, the search goes on above
it. -/
theorem lt_of_find {total t x : ℕ} {b b' : FatBuf} (hfind : fatFindFreeCluster b total = t)
    (hne : t ≠ 0) (hsame : ∀ y < t, fatNextCluster b' y = fatNextCluster b y)
    (hused : fatNextCluster b' t ≠ 0) (hfind' : fatFindFreeCluster b' total = x) (hx : x ≠ 0) :
    t < x ∧ x < total + 2 := by
  obtain ⟨-, -, -, hleast⟩ := fatFindFreeCluster_pos hfind hne
  obtain ⟨hx2, hxlt, hzero, -⟩ := fatFindFreeCluster_pos hfind' hx
  refine ⟨?_, hxlt⟩
  by_contra hle
  rcases Nat.lt_or_eq_of_le (not_lt.mp hle) with hlt | heq
  · rw [hsame x hlt] at hzero
    exact hleast x hx2 hlt hzero
  · rw [heq] at hzero
    exact hused hzero

/-- What an allocation leaves in the entry of the first cluster it takes: the end mark,
the number of a higher cluster cut to twelve bits, or nothing when the second and last
cluster is 4096. -/
theorem entry_of_first {total n t : ℕ} {fatBuf : FatBuf} {r : Chained} (htotal : total ≤ 6144)
    (halloc : allocChain total (n + 1) 0 fatBuf = .ok r) (hdone : r.complete = true)
    (hfind : fatFindFreeCluster fatBuf total = t) (hne : t ≠ 0) :
    (fatNextCluster r.fatBuf t = 0xFFF ∨ ∃ x, t < x ∧ x < total + 2 ∧ x % 4096 ≠ 0 ∧
      fatNextCluster r.fatBuf t = x % 4096) ∨
    n = 1 ∧ fatFindFreeCluster (takeCluster fatBuf 0 t) total = 4096 ∧
      r.fatBuf = takeCluster (takeCluster fatBuf 0 t) t 4096 := by
  rcases allocChain_succ_eq_ok halloc with ⟨hzero, -⟩ | ⟨c, rest, hc, -, hrest, rfl⟩
  · exact absurd (hfind.symm.trans hzero) hne
  obtain rfl : c = t := hc.symm.trans hfind
  have hself : fatNextCluster (takeCluster fatBuf 0 c) c = 0xFFF := by
    rw [fatNextCluster_takeCluster, if_pos rfl]
  have hlow (y : ℕ) (hy : y < c) :
      fatNextCluster (takeCluster fatBuf 0 c) y = fatNextCluster fatBuf y := by
    rw [fatNextCluster_takeCluster, if_neg (by omega), if_neg fun h => h.1 rfl]
  cases n with
  | zero =>
      injection hrest with hrest
      subst hrest
      exact Or.inl (Or.inl hself)
  | succ k =>
      have hused : fatNextCluster (takeCluster fatBuf 0 c) c ≠ 0 := by omega
      by_cases h4096 : fatFindFreeCluster (takeCluster fatBuf 0 c) total = 4096
      · rcases allocChain_succ_eq_ok hrest with ⟨hzero, -⟩ | ⟨x, rest₂, hx, -, hrest₂, rfl⟩
        · omega
        obtain rfl : x = 4096 := hx.symm.trans h4096
        obtain ⟨hclt, -⟩ := lt_of_find hfind hne hlow hused h4096 (by decide)
        have hc2 := (fatFindFreeCluster_pos hfind hne).1
        set b := takeCluster (takeCluster fatBuf 0 c) c 4096 with hb
        have hentry (y : ℕ) : fatNextCluster b y = if y = 4096 then 0xFFF else if y = c then 0
            else fatNextCluster (takeCluster fatBuf 0 c) y := by
          rw [hb, fatNextCluster_takeCluster]
          simp only [ne_eq, hne, not_false_eq_true, true_and, Nat.reduceMod]
        cases k with
        | zero =>
            injection hrest₂ with hrest₂
            subst hrest₂
            exact Or.inr ⟨rfl, h4096, rfl⟩
        | succ j =>
            -- the link to 4096 freed the first cluster, so it is found again
            have hagain : fatFindFreeCluster b total = c := by
              have hctotal := (fatFindFreeCluster_pos hfind hne).2.1
              have hczero : fatNextCluster b c = 0 := by
                rw [hentry, if_neg (by omega), if_pos rfl]
              obtain ⟨hne', hle⟩ := fatFindFreeCluster_le hc2 hctotal hczero
              obtain ⟨hy2, -, hyzero, -⟩ := fatFindFreeCluster_pos rfl hne'
              by_contra hneq
              rw [hentry, if_neg (by omega), if_neg hneq, hlow _ (by omega)] at hyzero
              exact (fatFindFreeCluster_pos hfind hne).2.2.2 _ hy2 (by omega) hyzero
            rcases allocChain_succ_eq_ok hrest₂ with ⟨hzero, -⟩ | ⟨y, rest₃, hy, -, hrest₃, rfl⟩
            · omega
            obtain rfl : y = c := hy.symm.trans hagain
            set b' := takeCluster b 4096 y with hb'
            have hself' : fatNextCluster b' y = 0xFFF := by
              rw [hb', fatNextCluster_takeCluster, if_pos rfl]
            cases j with
            | zero =>
                injection hrest₃ with hrest₃
                subst hrest₃
                exact Or.inl (Or.inl hself')
            | succ i =>
                have hlow' (z : ℕ) (hz : z < y) : fatNextCluster b' z = fatNextCluster fatBuf z := by
                  rw [hb', fatNextCluster_takeCluster, if_neg (by omega), if_neg (by omega), hentry,
                    if_neg (by omega), if_neg (by omega), hlow z hz]
                have h4096' : fatNextCluster b' 4096 ≠ 0 := by
                  rw [hb', fatNextCluster_takeCluster, if_neg (by omega), if_pos ⟨by decide, rfl⟩]
                  omega
                have hother : fatFindFreeCluster b' total ≠ 4096 := fun heq =>
                  h4096' (fatFindFreeCluster_pos heq (by decide)).2.2.1
                obtain ⟨hne', hlink, hmod⟩ :=
                  allocChain_link htotal hne (by omega) hrest₃ hdone hother
                obtain ⟨hlt, hltTotal⟩ := lt_of_find hfind hne hlow' (by omega) rfl hne'
                exact Or.inl (Or.inr ⟨_, hlt, hltTotal, hmod, hlink⟩)
      · obtain ⟨hne', hlink, hmod⟩ := allocChain_link htotal hne hused hrest hdone h4096
        obtain ⟨hlt, hltTotal⟩ := lt_of_find hfind hne hlow hused rfl hne'
        exact Or.inl (Or.inr ⟨_, hlt, hltTotal, hmod, hlink⟩)

/-- Taking `n` clusters leaves the bytes of `secs` loaded sectors as they are: it takes
no cluster, or none whose entry begins there, or, with twelve sectors, the only one left
and cluster 4096, whose number frees the first again. -/
def SparesLow (secs total n : ℕ) (next : ℕ → ℕ) : Prop :=
  n = 0 ∨ freeTouching (secs * 512) total next = ∅ ∨
    secs = 12 ∧ n = 2 ∧ (freeTouching (secs * 512) total next).card = 1 ∧ next 4096 = 0

section Low

variable {secs n : ℕ} {fatBuf : FatBuf} {r : Chained} (hsecs : secs ≤ 18)
  (halloc : allocChain (secs * 512 * 2 / 3) n 0 fatBuf = .ok r)
include halloc

/-- The one allocation that undoes itself does so byte by byte. -/
theorem keeps_low_of_undone (h12 : secs = 12) (hn : n = 2)
    (hone : (freeTouching (secs * 512) (secs * 512 * 2 / 3) (fatNextCluster fatBuf)).card = 1)
    (h4096 : fatNextCluster fatBuf 4096 = 0) (hdone : r.complete = true) {o : ℕ}
    (ho : o < secs * 512) : r.fatBuf o = fatBuf o := by
  subst h12 hn
  obtain ⟨t, ht⟩ := Finset.card_eq_one.mp hone
  have hmem {x : ℕ} (h2 : 2 ≤ x) (hx : x < 4096) (hzero : fatNextCluster fatBuf x = 0) : x = t := by
    have hin : x ∈ freeTouching (12 * 512) (12 * 512 * 2 / 3) (fatNextCluster fatBuf) :=
      mem_freeTouching.mpr ⟨⟨⟨h2, by omega⟩, hzero⟩, by omega⟩
    rw [ht] at hin
    exact Finset.mem_singleton.mp hin
  obtain ⟨⟨⟨ht2, httotal⟩, htzero⟩, htlow⟩ :=
    mem_freeTouching.mp (by rw [ht]; exact Finset.mem_singleton_self t)
  -- the search finds the one cluster left, and behind it 4096
  have hfind : fatFindFreeCluster fatBuf (12 * 512 * 2 / 3) = t := by
    obtain ⟨hne, hle⟩ := fatFindFreeCluster_le ht2 httotal htzero
    obtain ⟨h2, -, hzero, -⟩ := fatFindFreeCluster_pos rfl hne
    exact hmem h2 (by omega) hzero
  have hne : t ≠ 0 := by omega
  have hused (x : ℕ) (hx : x < 4096) (h2 : 2 ≤ x) :
      fatNextCluster (takeCluster fatBuf 0 t) x ≠ 0 := by
    rw [fatNextCluster_takeCluster]
    split_ifs with hxt hlink
    · decide
    · exact absurd rfl hlink.1
    · exact fun hzero => hxt (hmem h2 hx hzero)
  have hnext : fatFindFreeCluster (takeCluster fatBuf 0 t) (12 * 512 * 2 / 3) = 4096 := by
    have hfree : fatNextCluster (takeCluster fatBuf 0 t) 4096 = 0 := by
      rw [fatNextCluster_takeCluster, if_neg (by omega), if_neg fun h => h.1 rfl, h4096]
    have hrange : 4096 < 12 * 512 * 2 / 3 + 2 := by decide
    obtain ⟨hne', hle⟩ := fatFindFreeCluster_le (by decide) hrange hfree
    obtain ⟨h2, -, hzero, -⟩ := fatFindFreeCluster_pos rfl hne'
    by_contra hlt
    exact hused _ (by omega) h2 hzero
  have hbuf : r.fatBuf = takeCluster (takeCluster fatBuf 0 t) t 4096 := by
    rcases allocChain_succ_eq_ok halloc with ⟨hzero, -⟩ | ⟨c, rest, hc, -, hrest, rfl⟩
    · omega
    obtain rfl : c = t := hc.symm.trans hfind
    rcases allocChain_succ_eq_ok hrest with ⟨hzero, -⟩ | ⟨x, rest₂, hx, -, hrest₂, rfl⟩
    · omega
    obtain rfl : x = 4096 := hx.symm.trans hnext
    injection hrest₂ with hrest₂
    rw [← hrest₂]
  have hset : takeCluster (takeCluster fatBuf 0 t) t 4096 =
      fatSetCluster (fatSetCluster (fatSetCluster fatBuf t 0xFFF) t 4096) 4096 0xFFF := by
    unfold takeCluster
    rw [if_pos hne, if_neg (not_not.mpr rfl)]
  rw [hbuf, hset, fatSetCluster_of_ne _ (by omega) (by omega)]
  apply UInt8.toNat_inj.mp
  simp only [fatSetCluster_byte]
  rcases Nat.mod_two_eq_zero_or_one t with hp | hp
  · rw [fatNextCluster_even fatBuf hp] at htzero
    split_ifs <;> first | omega | (subst_vars; omega)
  · rw [fatNextCluster_odd fatBuf hp] at htzero
    split_ifs <;> first | omega | (subst_vars; omega)

include hsecs

/-- **An allocation that runs to its end spares the loaded bytes only in these cases.** -/
theorem keeps_low_iff (hdone : r.complete = true) :
    (∀ o < secs * 512, r.fatBuf o = fatBuf o) ↔
      SparesLow secs (secs * 512 * 2 / 3) n (fatNextCluster fatBuf) := by
  constructor
  · intro hsame
    by_contra hspares
    unfold SparesLow at hspares
    push Not at hspares
    obtain ⟨hn, ⟨x, hx⟩, hundone⟩ := hspares
    obtain ⟨k, rfl⟩ := Nat.exists_eq_succ_of_ne_zero hn
    obtain ⟨⟨⟨hx2, hxlt⟩, hxzero⟩, hxlow⟩ := mem_freeTouching.mp hx
    -- the first cluster taken is the lowest free one, so its entry begins there too
    obtain ⟨hne, hle⟩ := fatFindFreeCluster_le hx2 hxlt hxzero
    obtain ⟨h2, hlt, hzero, hleast⟩ := fatFindFreeCluster_pos rfl hne
    set t := fatFindFreeCluster fatBuf (secs * 512 * 2 / 3) with ht
    have hlow : t + t / 2 < secs * 512 := by omega
    have hdiffers {v : ℕ} (hentry : fatNextCluster r.fatBuf t = v) (hv : v ≠ 0)
        (hhalf : ¬ t + t / 2 + 1 < secs * 512 → v % 16 ≠ 0) : False := by
      have hdiff : ∃ o < secs * 512, r.fatBuf o ≠ fatBuf o := by
        by_cases hfull : t + t / 2 + 1 < secs * 512
        · exact differs_of_entry hfull (by rw [hentry, hzero]; exact hv)
        · exact differs_of_half hlow hzero hentry (hhalf hfull)
      obtain ⟨o, ho, hne'⟩ := hdiff
      exact hne' (hsame o ho)
    rcases entry_of_first (by omega) halloc hdone ht.symm hne with
      (hend | ⟨y, hty, hy, hymod, hlink⟩) | ⟨rfl, hnext, hbuf⟩
    · exact hdiffers hend (by decide) fun _ => by decide
    · refine hdiffers hlink hymod fun hhalf => ?_
      -- the entry is the last one that begins there, so the next cluster is the next number
      have hyt : y = t + 1 := by omega
      rw [Nat.mod_mod_of_dvd y (show 16 ∣ 4096 by decide)]
      rcases Nat.mod_two_eq_zero_or_one t with hp | hp
      · omega
      · omega
    · have hused : fatNextCluster r.fatBuf 4096 = 0xFFF := by
        rw [hbuf, fatNextCluster_takeCluster, if_pos rfl]
      obtain ⟨-, h4096lt, hfree, -⟩ := fatFindFreeCluster_pos hnext (by decide)
      have ht4096 : 4096 ≠ t := by
        intro heq
        rw [← heq, fatNextCluster_takeCluster, if_pos rfl] at hfree
        exact absurd hfree (by decide)
      rw [fatNextCluster_takeCluster, if_neg ht4096, if_neg fun h => h.1 rfl] at hfree
      by_cases h12 : secs = 12
      · -- one cluster below 4096 was free, or it would have been the second one
        refine hundone h12 rfl ?_ hfree
        apply Finset.card_eq_one.mpr
        refine ⟨t, Finset.eq_singleton_iff_unique_mem.mpr ⟨mem_freeTouching.mpr
          ⟨⟨⟨h2, hlt⟩, hzero⟩, hlow⟩, fun y hy => ?_⟩⟩
        obtain ⟨⟨⟨hy2, hylt⟩, hyzero⟩, hylow⟩ := mem_freeTouching.mp hy
        by_contra hyt
        have hy' : fatNextCluster (takeCluster fatBuf 0 t) y = 0 := by
          rw [fatNextCluster_takeCluster, if_neg hyt, if_neg fun h => h.1 rfl, hyzero]
        obtain ⟨-, hle'⟩ := fatFindFreeCluster_le hy2 hylt hy'
        rw [hnext] at hle'
        omega
      · obtain ⟨o, ho, hne'⟩ := differs_of_entry (show 4096 + 4096 / 2 + 1 < secs * 512 by omega)
          (show fatNextCluster r.fatBuf 4096 ≠ fatNextCluster fatBuf 4096 by
            rw [hused, hfree]; decide)
        exact hne' (hsame o ho)
  · rintro (rfl | hempty | ⟨h12, hn, hone, h4096⟩) o ho
    · injection halloc with halloc
      rw [← halloc]
    · exact allocChain_keeps_low hempty (fun h => absurd rfl h) halloc ho
    · exact keeps_low_of_undone halloc h12 hn hone h4096 hdone ho

end Low

end MasterOS.Fat
