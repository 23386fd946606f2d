/-
# Two-level address translation

Physical memory as frames of words, and the translation of a page through a directory
frame. A directory entry is absent, maps a large page, or points to a table. A directory
whose last entry points to itself shows its own words and those of its tables in fixed
pages, so that they can be read and written through the translation itself.
-/

import Mathlib.Data.Nat.Bitwise
import Mathlib.Tactic.Ring

namespace MasterOS.Device

/-- Physical memory: a word of a frame. -/
abbrev Mem : Type := ℕ → ℕ → ℕ

/-- Write one word. -/
def Mem.set (mem : Mem) (frame word value : ℕ) : Mem := fun f w =>
  if f = frame ∧ w = word then value else mem f w

@[simp]
theorem Mem.set_self (mem : Mem) (frame word value : ℕ) :
    mem.set frame word value frame word = value := if_pos ⟨rfl, rfl⟩

theorem Mem.set_of_ne_frame (mem : Mem) {frame f : ℕ} (h : f ≠ frame) (word value w : ℕ) :
    mem.set frame word value f w = mem f w := if_neg fun hall => h hall.1

theorem Mem.set_of_ne_word (mem : Mem) {word w : ℕ} (h : w ≠ word) (frame value f : ℕ) :
    mem.set frame word value f w = mem f w := if_neg fun hall => h hall.2

/-- The bit of an entry that says it is there. -/
def Present (entry : ℕ) : Prop := entry.testBit 0 = true

/-- The bit of a directory entry that makes it a large page. -/
def Large (entry : ℕ) : Prop := entry.testBit 7 = true

instance (entry : ℕ) : Decidable (Present entry) := by unfold Present; infer_instance

instance (entry : ℕ) : Decidable (Large entry) := by unfold Large; infer_instance

/-- The frame an entry points to. -/
def frameOf (entry : ℕ) : ℕ := entry / 4096

/-- The directory entry points to a table. -/
def HasTable (mem : Mem) (dir slot : ℕ) : Prop :=
  Present (mem dir slot) ∧ ¬ Large (mem dir slot)

instance (mem : Mem) (dir slot : ℕ) : Decidable (HasTable mem dir slot) := by
  unfold HasTable; infer_instance

/-- The frame of the table of a slot. -/
def tableOf (mem : Mem) (dir slot : ℕ) : ℕ := frameOf (mem dir slot)

/-- The frame that a page translates to; none is a page fault. -/
def walk (mem : Mem) (dir page : ℕ) : Option ℕ :=
  let entry := mem dir (page / 1024)
  if ¬ Present entry then none
  else if Large entry then some (entry / 4194304 * 1024 + page % 1024)
  else if Present (mem (frameOf entry) (page % 1024)) then
    some (frameOf (mem (frameOf entry) (page % 1024)))
  else none

/-- Read a word of a page. -/
def load (mem : Mem) (dir page word : ℕ) : Option ℕ :=
  (walk mem dir page).map fun frame => mem frame word

/-- Write a word of a page. -/
def store (mem : Mem) (dir page word value : ℕ) : Option Mem :=
  (walk mem dir page).map fun frame => mem.set frame word value

/-- The translation of a page whose slot has a table. -/
theorem walk_of_hasTable {mem : Mem} {dir page : ℕ} (h : HasTable mem dir (page / 1024)) :
    walk mem dir page =
      if Present (mem (tableOf mem dir (page / 1024)) (page % 1024)) then
        some (frameOf (mem (tableOf mem dir (page / 1024)) (page % 1024)))
      else none := by
  unfold walk
  dsimp only
  rw [if_neg (not_not.mpr h.1), if_neg h.2]
  rfl

/-! ## The recursive slot -/

/-- The last slot of the directory points to the directory. -/
structure Recursive (mem : Mem) (dir : ℕ) : Prop where
  table : HasTable mem dir 1023
  self : tableOf mem dir 1023 = dir

/-- The page that shows the directory. -/
def recPageDir : ℕ := 1048575

/-- The page that shows the table of a slot. -/
def recPageTable (slot : ℕ) : ℕ := 1047552 + slot

section Recursive

variable {mem : Mem} {dir : ℕ}

theorem Recursive.walk_pageTable (h : Recursive mem dir) {slot : ℕ} (hslot : slot < 1024) :
    walk mem dir (recPageTable slot) =
      if Present (mem dir slot) then some (tableOf mem dir slot) else none := by
  have hdiv : recPageTable slot / 1024 = 1023 := by
    unfold recPageTable
    omega
  have hmod : recPageTable slot % 1024 = slot := by
    unfold recPageTable
    omega
  rw [walk_of_hasTable (hdiv ▸ h.table), hdiv, hmod, h.self]
  rfl

theorem Recursive.walk_pageDir (h : Recursive mem dir) : walk mem dir recPageDir = some dir := by
  have hlast := h.walk_pageTable (show 1023 < 1024 by decide)
  rw [if_pos h.table.1, h.self] at hlast
  exact hlast

theorem Recursive.load_pageDir (h : Recursive mem dir) (slot : ℕ) :
    load mem dir recPageDir slot = some (mem dir slot) := by
  rw [load, h.walk_pageDir]
  rfl

theorem Recursive.store_pageDir (h : Recursive mem dir) (slot value : ℕ) :
    store mem dir recPageDir slot value = some (mem.set dir slot value) := by
  rw [store, h.walk_pageDir]
  rfl

theorem Recursive.load_pageTable (h : Recursive mem dir) {slot : ℕ} (hslot : slot < 1024)
    (hpresent : Present (mem dir slot)) (word : ℕ) :
    load mem dir (recPageTable slot) word = some (mem (tableOf mem dir slot) word) := by
  rw [load, h.walk_pageTable hslot, if_pos hpresent]
  rfl

theorem Recursive.store_pageTable (h : Recursive mem dir) {slot : ℕ} (hslot : slot < 1024)
    (hpresent : Present (mem dir slot)) (word value : ℕ) :
    store mem dir (recPageTable slot) word value =
      some (mem.set (tableOf mem dir slot) word value) := by
  rw [store, h.walk_pageTable hslot, if_pos hpresent]
  rfl

/-- The recursive slot stays as long as the directory's last word does. -/
theorem Recursive.of_eq {mem' : Mem} (h : Recursive mem dir)
    (hsame : mem' dir 1023 = mem dir 1023) : Recursive mem' dir := by
  refine ⟨?_, ?_⟩
  · rw [HasTable, hsame]
    exact h.table
  · rw [tableOf, hsame]
    exact h.self

end Recursive

/-! ## Bytes -/

/-- A byte of a word, counted from the lowest. -/
def byteOf (word k : ℕ) : UInt8 := UInt8.ofNat (word / 256 ^ k)

/-- The word with one byte replaced. -/
def setByteOf (word k : ℕ) (b : UInt8) : ℕ :=
  (word / 256 ^ (k + 1) * 256 + b.toNat) * 256 ^ k + word % 256 ^ k

/-- A byte of a frame. -/
def Mem.byte (mem : Mem) (frame offset : ℕ) : UInt8 :=
  byteOf (mem frame (offset / 4)) (offset % 4)

/-- Write one byte of a frame. -/
def Mem.setByte (mem : Mem) (frame offset : ℕ) (b : UInt8) : Mem :=
  mem.set frame (offset / 4) (setByteOf (mem frame (offset / 4)) (offset % 4) b)

/-- Read the byte at an address. -/
def loadByte (mem : Mem) (dir addr : ℕ) : Option UInt8 :=
  (walk mem dir (addr / 4096)).map fun frame => mem.byte frame (addr % 4096)

/-- Write the byte at an address. -/
def storeByte (mem : Mem) (dir addr : ℕ) (b : UInt8) : Option Mem :=
  (walk mem dir (addr / 4096)).map fun frame => mem.setByte frame (addr % 4096) b

theorem byteOf_setByteOf (word k j : ℕ) (b : UInt8) :
    byteOf (setByteOf word k b) j = if j = k then b else byteOf word j := by
  have hmod : word % 256 ^ k < 256 ^ k := Nat.mod_lt _ (Nat.pow_pos (by decide))
  have hbyte := b.toNat_lt
  rcases lt_trichotomy j k with hlt | rfl | hlt
  · -- the bytes below are those of the remainder
    obtain ⟨n, rfl⟩ := Nat.exists_eq_add_of_lt hlt
    have hlow (x : ℕ) : (x * 256 ^ (j + n + 1) + word % 256 ^ (j + n + 1)) / 256 ^ j % 256 =
        word / 256 ^ j % 256 := by
      have hpow : 256 ^ (j + n + 1) = 256 ^ j * (256 * 256 ^ n) := by ring
      conv_rhs => rw [← Nat.div_add_mod word (256 ^ (j + n + 1))]
      rw [hpow, show x * (256 ^ j * (256 * 256 ^ n)) = 256 ^ j * (256 * (x * 256 ^ n)) by ring,
        Nat.mul_assoc (256 ^ j), Nat.mul_add_div (Nat.pow_pos (by decide)),
        Nat.mul_add_div (Nat.pow_pos (by decide)), Nat.mul_add_mod, Nat.mul_assoc 256,
        Nat.mul_add_mod]
    rw [if_neg (by omega)]
    refine UInt8.toNat_inj.mp ?_
    rw [byteOf, byteOf, setByteOf, UInt8.toNat_ofNat', UInt8.toNat_ofNat']
    exact hlow _
  · rw [if_pos rfl]
    refine UInt8.toNat_inj.mp ?_
    rw [byteOf, setByteOf, UInt8.toNat_ofNat', Nat.mul_comm, Nat.mul_add_div (by omega),
      Nat.div_eq_of_lt hmod]
    omega
  · obtain ⟨n, rfl⟩ := Nat.exists_eq_add_of_lt hlt
    have hpow : 256 ^ (k + n + 1) = 256 ^ k * (256 * 256 ^ n) := by ring
    rw [if_neg (by omega)]
    rw [byteOf, byteOf, setByteOf, hpow, ← Nat.div_div_eq_div_mul, Nat.mul_comm _ (256 ^ k),
      Nat.mul_add_div (by omega), Nat.div_eq_of_lt hmod, ← Nat.div_div_eq_div_mul,
      ← Nat.div_div_eq_div_mul, ← Nat.div_div_eq_div_mul, pow_succ, ← Nat.div_div_eq_div_mul]
    congr 2
    omega

theorem Mem.byte_setByte (mem : Mem) (frame offset : ℕ) (b : UInt8) (f o : ℕ) :
    (mem.setByte frame offset b).byte f o = if f = frame ∧ o = offset then b else mem.byte f o := by
  unfold Mem.byte Mem.setByte
  by_cases hword : f = frame ∧ o / 4 = offset / 4
  · obtain ⟨rfl, hword⟩ := hword
    rw [hword, Mem.set_self, byteOf_setByteOf]
    by_cases ho : o = offset
    · rw [if_pos (by rw [ho]), if_pos ⟨rfl, ho⟩]
    · rw [if_neg (by omega), if_neg fun h => ho h.2]
  · have hset : mem.set frame (offset / 4) (setByteOf (mem frame (offset / 4)) (offset % 4) b) f
        (o / 4) = mem f (o / 4) := if_neg hword
    rw [hset, if_neg fun h => hword ⟨h.1, by rw [h.2]⟩]

theorem Mem.setByte_of_ne_frame (mem : Mem) {frame f : ℕ} (h : f ≠ frame) (offset : ℕ) (b : UInt8)
    (w : ℕ) : mem.setByte frame offset b f w = mem f w :=
  mem.set_of_ne_frame h ..

end MasterOS.Device
