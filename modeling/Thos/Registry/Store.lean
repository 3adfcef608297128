import Thos.Registry.RoundTrip

/-!
# The registry and its hive files

The calls of `registry.rs`: each one changes the tree in memory and then rewrites
the file of the hive it falls under (`persist`). `loadHives` reads the files back
at boot.

The disk is a map from paths to file contents, and a write to it succeeds. Change
notification has no effect on the tree or the files; `Registry.Notify` adds it.
-/

set_option autoImplicit false

namespace Thos.Registry

open Thos.Lib

/-- The tree in memory and the files on disk. -/
structure Store where
  root : Key
  files : Bytes → Option Bytes

/-! ## Seeding, hives and boot -/

variable (root : Key)

/-- The standard roots, created on first use of the tree. -/
def seed : Key :=
  ["machine", "user", "machine\\software", "machine\\system"].foldl
    (fun r h => make r (components (ascii h)) 0 id) root

/-- A hive root and its backing file. -/
structure Hive where
  root : List Bytes
  file : Bytes
  deriving DecidableEq

def hives : List Hive :=
  [⟨[ascii "machine", ascii "software"], ascii "/etc/thos/registry/software.hiv"⟩,
   ⟨[ascii "machine", ascii "system"], ascii "/etc/thos/registry/system.hiv"⟩,
   ⟨[ascii "user"], ascii "/etc/thos/registry/user.hiv"⟩]

def underHive (comps root : List Bytes) : Bool :=
  root.length ≤ comps.length && (comps.zip root).all fun p => p.1 == p.2

/-- Rewrite whichever hive `comps` falls under. -/
def persist (s : Store) (comps : List Bytes) : Store :=
  match hives.find? fun h => underHive comps h.root with
  | none => s
  | some h =>
    match find s.root h.root with
    | none => s
    | some k => { s with files := Function.update s.files h.file (some (serializeHive k)) }

variable (files : Bytes → Option Bytes)

/-- One round of `load_hives`: the file is authoritative and replaces the seed. -/
def loadHive (root : Key) (h : Hive) : Option Key :=
  match files h.file with
  | none => some root
  | some bytes => (deserializeHive Key.new bytes).map fun k => make root h.root 0 fun _ => k

def loadHives (root : Key) : Option Key := hives.foldlM (loadHive files) root

/-- The tree after a boot from `files`. -/
def boot : Option Key := loadHives files (seed Key.new)

/-! ## Calls -/

def createOwned (s : Store) (path : Str) (uid : UInt32) : Bool × Store :=
  let comps := components path.bytes
  if comps = [] then (false, s)
  else (true, persist { s with root := make s.root comps uid id } comps)

def setValue (s : Store) (path name : Str) (ty : UInt32) (data : Bytes) : Bool × Store :=
  let comps := components path.bytes
  match findMut s.root comps (Key.insertValue (toAsciiLowercase name.bytes) ⟨ty, data⟩) with
  | none => (false, s)
  | some root => (true, persist { s with root } comps)

/-- `subkeys.remove(leaf).is_some()` below `parent`. -/
def removeLeaf (parent : List Bytes) (leaf : Bytes) : Option Key :=
  (find root parent).bind fun p =>
    if (OrdMap.get? leaf p.subkeys).isSome then findMut root parent (Key.removeSubkey leaf)
    else none

def deleteKey (s : Store) (path : Str) : Bool × Store :=
  let comps := components path.bytes
  match comps.getLast? with
  | none => (false, s)
  | some leaf =>
    match removeLeaf s.root comps.dropLast leaf with
    | none => (false, s)
    | some root => (true, persist { s with root } comps)

variable (path : Str)

/-- `open`. -/
def openKey : Bool := (find root (components path.bytes)).isSome

/-- The write check: the system account, or the owner. -/
def writeOk (ownerUid uid : UInt32) : Bool := uid == 0 || uid == ownerUid

def ownerOf : Option UInt32 := (find root (components path.bytes)).map Key.ownerUid

def writeKeyOk (uid : UInt32) : Bool := (ownerOf root path).any fun owner => writeOk owner uid

/-- The loop of `create_write_ok`, the components in reverse: the nearest existing
ancestor decides. -/
def nearestOk (root : Key) (uid : UInt32) : List Bytes → Bool
  | [] => writeOk root.ownerUid uid
  | c :: rev =>
    match find root (c :: rev).reverse with
    | some k => writeOk k.ownerUid uid
    | none => nearestOk root uid rev

def createWriteOk (uid : UInt32) : Bool := nearestOk root uid (components path.bytes).reverse

/-! ## Effect of the calls -/

theorem underHive_iff (comps root : List Bytes) : underHive comps root = true ↔ root <+: comps := by
  induction root generalizing comps with
  | nil => simp [underHive]
  | cons c root ih =>
    cases comps with
    | nil => simp [underHive]
    | cons d comps =>
      have hrest := ih comps
      simp only [underHive, Bool.and_eq_true, decide_eq_true_eq] at hrest
      simp only [underHive, List.length_cons, Nat.add_le_add_iff_right, List.zip_cons_cons,
        List.all_cons, Bool.and_eq_true, decide_eq_true_eq, beq_iff_eq, List.cons_prefix_cons,
        ← hrest]
      tauto

theorem components_ne_nil_of_getLast? {comps : List Bytes} {leaf : Bytes}
    (h : comps.getLast? = some leaf) : comps = comps.dropLast ++ [leaf] :=
  (List.dropLast_append_getLast? leaf h).symm

variable (s : Store)

theorem persist_root (comps : List Bytes) : (persist s comps).root = s.root := by
  unfold persist
  split
  · rfl
  · split <;> rfl

/-- A call that changes the tree updates one key: `make` at `path` with `edit`, made
for a request on `comps`. -/
structure Change where
  (comps path : List Bytes)
  uid : UInt32
  edit : Key → Key

def Change.apply (c : Change) (s : Store) : Store :=
  persist { s with root := make s.root c.path c.uid c.edit } c.comps

/-- The change `create_owned` makes. -/
def createChange (comps : List Bytes) (uid : UInt32) : Change := ⟨comps, comps, uid, id⟩

/-- The change `set_value` makes. -/
def setChange (comps : List Bytes) (name : Bytes) (v : Value) : Change :=
  ⟨comps, comps, 0, Key.insertValue name v⟩

/-- The change `delete_key` makes. -/
def deleteChange (parent : List Bytes) (leaf : Bytes) : Change :=
  ⟨parent ++ [leaf], parent, 0, Key.removeSubkey leaf⟩

theorem createOwned_eq (path : Str) (uid : UInt32) : (createOwned s path uid).2 =
      if components path.bytes = [] then s
      else (createChange (components path.bytes) uid).apply s := by
  unfold createOwned
  dsimp only
  split_ifs <;> rfl

theorem setValue_eq (path name : Str) (ty : UInt32) (data : Bytes) :
    (setValue s path name ty data).2 = if (find s.root (components path.bytes)).isSome then
        (setChange (components path.bytes) (toAsciiLowercase name.bytes) ⟨ty, data⟩).apply s
      else s := by
  unfold setValue
  dsimp only
  rw [findMut_eq s.root _ 0]
  cases find s.root (components path.bytes) <;> rfl

theorem removeLeaf_eq (root : Key) (parent : List Bytes) (leaf : Bytes) :
    removeLeaf root parent leaf = if (find root (parent ++ [leaf])).isSome then
        some (make root parent 0 (Key.removeSubkey leaf)) else none := by
  unfold removeLeaf
  rw [findMut_eq root parent 0, find_append]
  cases hp : find root parent with
  | none => rfl
  | some p => cases hl : OrdMap.get? leaf p.subkeys <;> simp [find, hl]

theorem deleteKey_eq (path : Str) : ((deleteKey s path).2 = s ∧
      (components path.bytes = [] ∨ find s.root (components path.bytes) = none)) ∨
    ∃ parent leaf, components path.bytes = parent ++ [leaf] ∧
      (find s.root (parent ++ [leaf])).isSome ∧
      (deleteKey s path).2 = (deleteChange parent leaf).apply s := by
  cases hlast : (components path.bytes).getLast? with
  | none =>
    left
    exact ⟨by simp [deleteKey, hlast], .inl (List.getLast?_eq_none_iff.1 hlast)⟩
  | some leaf =>
    have hcomps := components_ne_nil_of_getLast? hlast
    by_cases hfind : (find s.root ((components path.bytes).dropLast ++ [leaf])).isSome
    · right
      refine ⟨_, leaf, hcomps, hfind, ?_⟩
      simp only [deleteKey, hlast, removeLeaf_eq, if_pos hfind, Change.apply, deleteChange]
      rw [← hcomps]
    · left
      refine ⟨by simp [deleteKey, hlast, removeLeaf_eq, hfind], .inr ?_⟩
      rw [hcomps]
      simpa using hfind

end Thos.Registry
