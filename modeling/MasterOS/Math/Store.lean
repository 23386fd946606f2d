/-
# Stores of files

The purpose of a file system, without disk, table or record. A store says what the names
of each directory stand for: a file with its content, or another directory. One directory
is the root and one is current, and requests are about names in the current one.

A write may fail, and then the file it was to replace is gone all the same; making a
directory may fail, and changes nothing. Every other reply is decided by the store. A new
directory is one that could not be reached before. Removing a directory takes its name
away, whatever is in it.
-/

import MasterOS.Math.Simulation
import Mathlib.Algebra.BigOperators.Finprod
import Mathlib.Logic.Function.Basic

namespace MasterOS.Math

universe u v w

/-- What a name stands for. -/
inductive Node (D : Type u) (A : Type w)
  | file (content : List A)
  | dir (id : D)

/-- Directories `D` whose names are of type `K`, with files over `A`. -/
@[ext] structure Store (D : Type u) (K : Type v) (A : Type w) where
  root : D
  cwd : D
  tree : D → K → Option (Node D A)

/-- The length of a file. A directory takes nothing. -/
def Node.size {D : Type u} {A : Type w} : Node D A → ℕ
  | .file content => content.length
  | .dir _ => 0

/-- What a store is asked for. A read names a limit on what it delivers. -/
inductive Request (K : Type v) (A : Type w)
  | write (name : K) (content : List A)
  | read (name : K) (limit : ℕ)
  | delete (name : K)
  | rename (oldName newName : K)
  | mkdir (name : K)
  | rmdir (name : K)
  | cd (name : K)
  | top

/-- What a store replies. -/
inductive Reply (A : Type w)
  | done
  | failed
  | content (delivered : List A)

namespace Store

variable {D : Type u} {K : Type v} {A : Type w}

/-- What a name in the current directory stands for. -/
def here (F : Store D K A) (name : K) : Option (Node D A) := F.tree F.cwd name

/-- A name in the current directory stands for a file. -/
def HasFile (F : Store D K A) (name : K) : Prop := ∃ content, F.here name = some (.file content)

/-- A name in the current directory stands for a directory. -/
def HasDir (F : Store D K A) (name : K) : Prop := ∃ id, F.here name = some (.dir id)

/-- The directories below the root. -/
inductive Reach (F : Store D K A) : D → Prop
  | root : Reach F F.root
  | child {dir below : D} {name : K} : Reach F dir → F.tree dir name = some (.dir below) →
      Reach F below

/-- The store in which another directory is current. -/
def enter (F : Store D K A) (id : D) : Store D K A := { F with cwd := id }

/-- The length of the files of a directory together. -/
noncomputable def bytes (F : Store D K A) (dir : D) : ℕ :=
  finsum fun name => (F.tree dir name).elim 0 Node.size

/-- Names that are all those of a directory tell what its files take. -/
theorem bytes_eq_sum {F : Store D K A} {dir : D} {names : List K} (hnodup : names.Nodup)
    (hall : ∀ name node, F.tree dir name = some node → name ∈ names) :
    F.bytes dir = (names.map fun name => (F.tree dir name).elim 0 Node.size).sum := by
  classical
  rw [bytes, finsum_eq_sum_of_support_subset (s := names.toFinset), List.sum_toFinset _ hnodup]
  intro name hname
  cases hnode : F.tree dir name with
  | none =>
      rw [Function.mem_support, hnode] at hname
      exact absurd rfl hname
  | some node => exact List.mem_toFinset.mpr (hall name node hnode)

variable [DecidableEq D]

/-- The store in which a directory has no names. -/
def clear (F : Store D K A) (id : D) : Store D K A :=
  { F with tree := Function.update F.tree id fun _ => none }

@[simp] theorem clear_root (F : Store D K A) (id : D) : (F.clear id).root = F.root := rfl

@[simp] theorem clear_cwd (F : Store D K A) (id : D) : (F.clear id).cwd = F.cwd := rfl

theorem clear_tree (F : Store D K A) (id dir : D) (name : K) :
    (F.clear id).tree dir name = if dir = id then none else F.tree dir name := by
  unfold clear
  by_cases hdir : dir = id <;> simp [hdir]

variable [DecidableEq K]

/-- The store in which a name of the current directory stands for something else. -/
def set (F : Store D K A) (name : K) (node : Option (Node D A)) : Store D K A :=
  { F with tree := Function.update F.tree F.cwd (Function.update (F.here) name node) }

/-- The store without the file of a name. A directory of the name stays. -/
def dropFile (F : Store D K A) (name : K) : Store D K A :=
  match F.here name with
  | some (.file _) => F.set name none
  | _ => F

@[simp] theorem set_root (F : Store D K A) (name : K) (node : Option (Node D A)) :
    (F.set name node).root = F.root := rfl

@[simp] theorem set_cwd (F : Store D K A) (name : K) (node : Option (Node D A)) :
    (F.set name node).cwd = F.cwd := rfl

@[simp] theorem dropFile_root (F : Store D K A) (name : K) :
    (F.dropFile name).root = F.root := by
  unfold dropFile
  split <;> rfl

theorem set_tree (F : Store D K A) (name : K) (node : Option (Node D A)) (dir : D) (name' : K) :
    (F.set name node).tree dir name' =
      if dir = F.cwd ∧ name' = name then node else F.tree dir name' := by
  unfold set here
  by_cases hdir : dir = F.cwd
  · subst hdir
    by_cases hname : name' = name <;> simp [hname]
  · simp [hdir]

/-- Dropping a file takes its name away, and nothing else. -/
theorem dropFile_of_hasFile {F : Store D K A} {name : K} (h : F.HasFile name) :
    F.dropFile name = F.set name none := by
  obtain ⟨content, hcontent⟩ := h
  rw [dropFile, hcontent]

theorem dropFile_of_not_hasFile {F : Store D K A} {name : K} (h : ¬ F.HasFile name) :
    F.dropFile name = F := by
  unfold dropFile
  split
  · rename_i content hcontent
    exact absurd ⟨content, hcontent⟩ h
  · rfl

/-- A name remembers only what it was given last. -/
theorem set_set (F : Store D K A) (name : K) (node node' : Option (Node D A)) :
    (F.set name node).set name node' = F.set name node' := by
  refine Store.ext rfl rfl (funext fun dir => funext fun name' => ?_)
  simp only [set_tree, set_cwd]
  split_ifs <;> rfl

theorem dropFile_set (F : Store D K A) (name : K) (node : Option (Node D A)) :
    (F.dropFile name).set name node = F.set name node := by
  unfold dropFile
  split
  · exact F.set_set name none node
  · rfl

@[simp] theorem dropFile_cwd (F : Store D K A) (name : K) :
    (F.dropFile name).cwd = F.cwd := by
  unfold dropFile
  split <;> rfl

/-- Behind a drop the name stands for no file. -/
theorem not_hasFile_dropFile (F : Store D K A) (name : K) :
    ¬ (F.dropFile name).HasFile name := by
  by_cases hfile : F.HasFile name
  · rintro ⟨content, hcontent⟩
    rw [dropFile_of_hasFile hfile, here, set_tree, if_pos ⟨rfl, rfl⟩] at hcontent
    cases hcontent
  · rw [dropFile_of_not_hasFile hfile]
    exact hfile

/-- Behind a drop nothing but a directory has the name. -/
theorem here_dropFile_eq_none_iff {F : Store D K A} {name : K} :
    (F.dropFile name).here name = none ↔ ¬ F.HasDir name := by
  by_cases hfile : F.HasFile name
  · have hnot : ¬ F.HasDir name := by
      rintro ⟨id, hid⟩
      obtain ⟨content, hcontent⟩ := hfile
      cases hid.symm.trans hcontent
    rw [dropFile_of_hasFile hfile, here, set_tree, if_pos ⟨rfl, rfl⟩]
    exact ⟨fun _ => hnot, fun _ => rfl⟩
  · rw [dropFile_of_not_hasFile hfile]
    constructor
    · rintro hnone ⟨id, hid⟩
      cases hid.symm.trans hnone
    · intro hnot
      cases hhere : F.here name with
      | none => rfl
      | some node =>
          cases node with
          | file content => exact absurd ⟨content, hhere⟩ hfile
          | dir id => exact absurd ⟨id, hhere⟩ hnot

/-- One request, with its reply. -/
inductive Step : Store D K A → Request K A × Reply A → Store D K A → Prop
  | written {F : Store D K A} {name : K} {content : List A} : ¬ F.HasDir name →
      Step F (.write name content, .done) (F.set name (some (.file content)))
  | notWritten {F : Store D K A} {name : K} {content : List A} :
      Step F (.write name content, .failed) (F.dropFile name)
  | delivered {F : Store D K A} {name : K} {content : List A} {limit : ℕ} :
      F.here name = some (.file content) →
      Step F (.read name limit, .content (content.take limit)) F
  | notDelivered {F : Store D K A} {name : K} {limit : ℕ} : ¬ F.HasFile name →
      Step F (.read name limit, .failed) F
  | deleted {F : Store D K A} {name : K} : F.HasFile name →
      Step F (.delete name, .done) (F.set name none)
  | notDeleted {F : Store D K A} {name : K} : ¬ F.HasFile name →
      Step F (.delete name, .failed) F
  | renamed {F : Store D K A} {oldName newName : K} {content : List A} :
      F.here oldName = some (.file content) → (newName = oldName ∨ F.here newName = none) →
      Step F (.rename oldName newName, .done)
        ((F.set oldName none).set newName (some (.file content)))
  | notRenamed {F : Store D K A} {oldName newName : K} : ¬ F.HasFile oldName →
      Step F (.rename oldName newName, .failed) F
  | made {F : Store D K A} {name : K} {id : D} : F.here name = none → ¬ F.Reach id →
      Step F (.mkdir name, .done) ((F.clear id).set name (some (.dir id)))
  | notMade {F : Store D K A} {name : K} : Step F (.mkdir name, .failed) F
  | removed {F : Store D K A} {name : K} : F.HasDir name →
      Step F (.rmdir name, .done) (F.set name none)
  | notRemoved {F : Store D K A} {name : K} : ¬ F.HasDir name →
      Step F (.rmdir name, .failed) F
  | entered {F : Store D K A} {name : K} {id : D} : F.here name = some (.dir id) →
      Step F (.cd name, .done) (F.enter id)
  | notEntered {F : Store D K A} {name : K} : ¬ F.HasDir name → Step F (.cd name, .failed) F
  | top {F : Store D K A} : Step F (.top, .done) (F.enter F.root)

/-! ## What stays -/

/-- A request that removes no directory. -/
def KeepsDirs : Request K A → Prop
  | .rmdir _ => False
  | _ => True

/-- A request that leaves a name alone: it does not write, delete or rename it, and removes
no directory. -/
def Spares (name : K) : Request K A → Prop
  | .write name' _ | .delete name' => name' ≠ name
  | .rename oldName newName => oldName ≠ name ∧ newName ≠ name
  | .rmdir _ => False
  | _ => True

omit [DecidableEq D] [DecidableEq K] in
theorem Spares.keepsDirs {name : K} {request : Request K A} (h : Spares name request) :
    KeepsDirs request := by
  cases request <;> first | exact h | trivial

omit [DecidableEq D] [DecidableEq K] in
theorem HasFile.not_hasDir {F : Store D K A} {name : K} (h : F.HasFile name) :
    ¬ F.HasDir name := by
  rintro ⟨id, hid⟩
  obtain ⟨content, hcontent⟩ := h
  cases hid.symm.trans hcontent

omit [DecidableEq D] [DecidableEq K] in
theorem not_hasDir_of_none {F : Store D K A} {name : K} (h : F.here name = none) :
    ¬ F.HasDir name := by
  rintro ⟨id, hid⟩
  cases hid.symm.trans h

/-- Giving a name that stands for no directory something else keeps every directory, and
every other name. -/
theorem set_keeps {F : Store D K A} {name : K} {node : Option (Node D A)}
    (hnot : ¬ F.HasDir name) {dir : D} {name' : K} {node' : Node D A}
    (hnode : F.tree dir name' = some node') (hother : (∃ id, node' = .dir id) ∨ name ≠ name') :
    (F.set name node).tree dir name' = some node' := by
  rw [set_tree, if_neg]
  · exact hnode
  · rintro ⟨rfl, rfl⟩
    rcases hother with ⟨id, rfl⟩ | hne
    · exact hnot ⟨id, hnode⟩
    · exact hne rfl

/-- **What a step keeps.** Directories stay where they are unless one is removed, and so does
a file whose name the request spares. -/
theorem Step.keeps {F F' : Store D K A} {request : Request K A} {reply : Reply A}
    (h : Step F (request, reply) F') (hdirs : KeepsDirs request) {dir : D} {name : K}
    {node : Node D A} (hreach : F.Reach dir) (hnode : F.tree dir name = some node)
    (hname : (∃ id, node = .dir id) ∨ Spares name request) : F'.tree dir name = some node := by
  cases h with
  | written hnot => exact set_keeps hnot hnode hname
  | @notWritten name' _ =>
      by_cases hfile : F.HasFile name'
      · rw [dropFile_of_hasFile hfile]
        exact set_keeps hfile.not_hasDir hnode hname
      · rw [dropFile_of_not_hasFile hfile]
        exact hnode
  | deleted hfile => exact set_keeps hfile.not_hasDir hnode hname
  | @renamed oldName newName content hold hnew =>
      have hfile : F.HasFile oldName := ⟨content, hold⟩
      have hfirst : (F.set oldName none).tree dir name = some node :=
        set_keeps hfile.not_hasDir hnode (hname.imp_right And.left)
      refine set_keeps ?_ hfirst (hname.imp_right And.right)
      rintro ⟨id, hid⟩
      rw [here, set_tree, set_cwd] at hid
      split_ifs at hid with heq
      rcases hnew with rfl | hnone
      · exact heq ⟨rfl, rfl⟩
      · exact not_hasDir_of_none hnone ⟨id, hid⟩
  | @made name' id hnone hid =>
      have hne : dir ≠ id := fun heq => hid (heq ▸ hreach)
      rw [set_tree, clear_cwd, if_neg, clear_tree, if_neg hne]
      · exact hnode
      · rintro ⟨rfl, rfl⟩
        cases hnone.symm.trans hnode
  | removed _ => exact hdirs.elim
  | _ => exact hnode

/-- Directories stay below the root as long as none is removed. -/
theorem Step.reach {F F' : Store D K A} {request : Request K A} {reply : Reply A}
    (h : Step F (request, reply) F') (hdirs : KeepsDirs request) {dir : D} (hreach : F.Reach dir) :
    F'.Reach dir := by
  have hroot : F'.root = F.root := by
    cases h <;> simp [enter]
  induction hreach with
  | root =>
      rw [← hroot]
      exact .root
  | child hdir hbelow ih => exact .child ih (h.keeps hdirs hdir hbelow (Or.inl ⟨_, rfl⟩))

/-- A name in a directory below the root stands for a file with that content. -/
def HoldsFile (dir : D) (name : K) (content : List A) (F : Store D K A) : Prop :=
  F.Reach dir ∧ F.tree dir name = some (.file content)

/-- **A file that is left alone stays**, along any trace. -/
theorem file_stays {F F' : Store D K A} {labels : List (Request K A × Reply A)}
    (h : Trace Step F labels F') {dir : D} {name : K} {content : List A}
    (hspares : ∀ label ∈ labels, Spares name label.1) (hfile : HoldsFile dir name content F) :
    HoldsFile dir name content F' := by
  refine h.keeps_of_labels (HoldsFile dir name content) (fun label => Spares name label.1) ?_
    hspares hfile
  rintro G ⟨request, reply⟩ G' hspare ⟨hdir, hnode⟩ hstep
  exact ⟨hstep.reach hspare.keepsDirs hdir,
    hstep.keeps hspare.keepsDirs hdir hnode (Or.inr hspare)⟩

/-- A step that leaves a name alone makes it no file. -/
theorem Step.keeps_noFile {F F' : Store D K A} {request : Request K A} {reply : Reply A}
    (h : Step F (request, reply) F') {dir : D} {name : K} (hspares : Spares name request)
    (hnone : ∀ content, F.tree dir name ≠ some (.file content)) (content : List A) :
    F'.tree dir name ≠ some (.file content) := by
  -- a name that is given no file
  have hset {G : Store D K A} {name' : K} {node : Option (Node D A)}
      (hG : G.tree dir name ≠ some (.file content))
      (hother : name' ≠ name ∨ node ≠ some (.file content)) :
      (G.set name' node).tree dir name ≠ some (.file content) := by
    rw [set_tree]
    split_ifs with heq
    · rcases hother with hne | hnode
      · exact absurd heq.2.symm hne
      · exact hnode
    · exact hG
  cases h with
  | written _ => exact hset (hnone content) (Or.inl hspares)
  | @notWritten name' _ =>
      unfold dropFile
      split
      · exact hset (hnone content) (Or.inl hspares)
      · exact hnone content
  | deleted _ => exact hset (hnone content) (Or.inl hspares)
  | renamed _ _ => exact hset (hset (hnone content) (Or.inl hspares.1)) (Or.inl hspares.2)
  | @made name' id _ _ =>
      refine hset (G := F.clear id) ?_ (Or.inr fun heq => by cases heq)
      rw [clear_tree]
      split_ifs
      · exact fun heq => by cases heq
      · exact hnone content
  | removed _ => exact hspares.elim
  | _ => exact hnone content

/-- **What is no file stays none**, along any trace that leaves the name alone. -/
theorem noFile_stays {F F' : Store D K A} {labels : List (Request K A × Reply A)}
    (h : Trace Step F labels F') {dir : D} {name : K}
    (hspares : ∀ label ∈ labels, Spares name label.1)
    (hnone : ∀ content, F.tree dir name ≠ some (.file content)) :
    ∀ content, F'.tree dir name ≠ some (.file content) := by
  refine h.keeps_of_labels (fun G => ∀ content, G.tree dir name ≠ some (.file content))
    (fun label => Spares name label.1) ?_ hspares hnone
  rintro G ⟨request, reply⟩ G' hspare hG hstep
  exact hstep.keeps_noFile hspare hG

end Store

end MasterOS.Math
