import Thos.Registry.NtCalls

/-!
# Keys of other owners

A caller other than the system account may write to the keys that it owns. The check is made on
the key that is named, but `NtDeleteKey` removes everything below it. So a call leaves the keys
of other owners alone exactly when it does not delete a key with one of theirs under it, and a
sequence of calls does when each of its calls does (`registry_ownership_iff`).
-/

set_option autoImplicit false

namespace Thos.Registry

open Thos.Lib Option

/-! ## Keys that are left alone -/

/-- A key that is still there, with the values and the owner it had. -/
def Kept (k : Key) (k' : Option Key) : Prop :=
  ∃ sub, k' = some sub ∧ sub.values = k.values ∧ sub.ownerUid = k.ownerUid

theorem Kept.refl (k : Key) : Kept k (some k) := ⟨k, rfl, rfl, rfl⟩

/-- Every key of another owner is kept. -/
def Respects (uid : UInt32) (before after : Key) : Prop :=
  ∀ p k, find before p = some k → k.ownerUid ≠ uid → Kept k (find after p)

theorem Respects.refl (uid : UInt32) (root : Key) : Respects uid root root := by
  intro p k hk _
  rw [hk]
  exact Kept.refl k

variable {root : Key} {uid : UInt32}

theorem kept_make {k : Key} {p q : List Bytes} {f : Key → Key} (hq : find root q = some k)
    (hbelow : ∀ t kp, q = p ++ t → find root p = some kp → find kp t = some k →
      Kept k (find (f kp) t)) : Kept k (find (make root p uid f) q) := by
  induction p generalizing root q with
  | nil => exact hbelow q root rfl rfl hq
  | cons c p ih =>
    cases q with
    | nil =>
      obtain rfl : root = k := some.inj hq
      exact ⟨_, rfl, rfl, rfl⟩
    | cons d q =>
      obtain ⟨child, hchild, hq⟩ := bind_eq_some_iff.1 hq
      by_cases hdc : d = c
      · subst hdc
        simp only [make, find, Key.subkeys_mk, OrdMap.get?_insert_self, bind_some, hchild,
          getD_some]
        refine ih hq fun t kp heq hp ht => hbelow t kp (by rw [heq, List.cons_append]) ?_ ht
        simp [find, hchild, hp]
      · simp only [make, find, Key.subkeys_mk, OrdMap.get?_insert_of_ne hdc, hchild, bind_some, hq]
        exact Kept.refl k

theorem respects_make_id (uid : UInt32) (root : Key) (p : List Bytes) (owner : UInt32) :
    Respects uid root (make root p owner id) := by
  intro q k hq _
  refine kept_make hq fun t kp _ _ ht => ?_
  rw [id, ht]
  exact Kept.refl k

theorem respects_make_insertValue {kp : Key} {p : List Bytes} (hp : find root p = some kp)
    (howner : kp.ownerUid = uid) (name : Bytes) (v : Value) :
    Respects uid root (make root p 0 (Key.insertValue name v)) := by
  intro q k hq hne
  refine kept_make hq fun t kp' _ hp' ht => ?_
  obtain rfl : kp' = kp := some.inj (hp'.symm.trans hp)
  cases t with
  | nil =>
    obtain rfl : kp' = k := some.inj ht
    exact absurd howner hne
  | cons c t =>
    have hsame : find (kp'.insertValue name v) (c :: t) = some k := by
      rw [find, Key.subkeys_insertValue]
      exact ht
    rw [hsame]
    exact Kept.refl k

/-! ## Deleting -/

theorem respects_make_removeSubkey_iff {target : Key} {parent : List Bytes} {leaf : Bytes}
    (htgt : find root (parent ++ [leaf]) = some target) :
    Respects uid root (make root parent 0 (Key.removeSubkey leaf)) ↔
      ∀ p sub, find target p = some sub → sub.ownerUid = uid := by
  constructor
  · intro hresp p sub hsub
    by_contra hne
    have hold : find root (parent ++ [leaf] ++ p) = some sub := by
      rw [find_append, htgt]
      exact hsub
    obtain ⟨sub', hnew, -⟩ := hresp _ sub hold hne
    -- the key is gone with everything below it
    rw [List.append_assoc, find_append, find_make_self] at hnew
    simp [find, OrdMap.get?_erase_self] at hnew
  · intro hown q k hq hne
    refine kept_make hq fun t kp heq hp ht => ?_
    cases t with
    | nil =>
      obtain rfl : kp = k := some.inj ht
      cases kp
      exact ⟨_, rfl, rfl, rfl⟩
    | cons c t =>
      by_cases hc : c = leaf
      · subst hc
        have hk : find target t = some k := by
          rwa [heq, ← List.singleton_append, ← List.append_assoc, find_append, htgt] at hq
        exact absurd (hown t k hk) hne
      · have hsame : find (kp.removeSubkey leaf) (c :: t) = some k := by
          rw [find, Key.subkeys_removeSubkey, OrdMap.get?_erase_of_ne hc]
          exact ht
        rw [hsame]
        exact Kept.refl k

/-! ## One call -/

/-- The call does not delete a key of the caller's that has a key of another owner below it. -/
def NtCall.Sheltered (s : NtState) (i : Nat) : NtCall → Prop
  | .deleteKey h =>
    ∀ path target, (s.tasks i).regkey h = some path → components path.bytes ≠ [] →
      find s.store.root (components path.bytes) = some target → target.ownerUid = (s.tasks i).uid →
      ∀ p sub, find target p = some sub → sub.ownerUid = (s.tasks i).uid
  | _ => True

variable {path : Str}

theorem writeKeyOk_iff (hu : uid ≠ 0) : writeKeyOk root path uid = true ↔
      ∃ k, find root (components path.bytes) = some k ∧ k.ownerUid = uid := by
  have hok : ∀ owner : UInt32, writeOk owner uid = true ↔ owner = uid := by
    intro owner
    rw [writeOk, Bool.or_eq_true, beq_iff_eq, beq_iff_eq, or_iff_right hu, eq_comm]
  cases hk : find root (components path.bytes) with
  | none => simp [writeKeyOk, ownerOf, hk]
  | some k => simp [writeKeyOk, ownerOf, hk, hok]

theorem respects_createOwned (uid owner : UInt32) (s : Store) (path : Str) :
    Respects uid s.root (createOwned s path owner).2.root := by
  rw [createOwned_eq]
  split_ifs
  · exact Respects.refl uid s.root
  · rw [Change.apply, persist_root]
    exact respects_make_id uid s.root _ owner

theorem respects_setValue (hu : uid ≠ 0) {s : Store} (hok : writeKeyOk s.root path uid = true)
    (name : Str) (ty : UInt32) (data : Bytes) :
    Respects uid s.root (setValue s path name ty data).2.root := by
  obtain ⟨k, hk, howner⟩ := (writeKeyOk_iff hu).1 hok
  rw [setValue_eq, if_pos (by rw [hk]; rfl), Change.apply, persist_root]
  exact respects_make_insertValue hk howner _ _

theorem respects_deleteKey_iff {s : Store} {target : Key}
    (htgt : find s.root (components path.bytes) = some target) :
    Respects uid s.root (deleteKey s path).2.root ↔
      (components path.bytes ≠ [] → ∀ p sub, find target p = some sub → sub.ownerUid = uid) := by
  rcases deleteKey_eq s path with ⟨heq, hnil | hnone⟩ | ⟨parent, leaf, hcomps, -, heq⟩
  · rw [heq]
    exact ⟨fun _ hne => absurd hnil hne, fun _ => Respects.refl uid s.root⟩
  · cases hnone ▸ htgt
  · rw [hcomps] at htgt
    have hne : components path.bytes ≠ [] := by simp [hcomps]
    rw [heq, Change.apply, persist_root, imp_iff_right hne]
    exact respects_make_removeSubkey_iff htgt

theorem ntCall_respects_iff {s : NtState} {i : Nat} (hu : (s.tasks i).uid ≠ 0) (c : NtCall) :
    Respects (s.tasks i).uid s.store.root (ntCall s i c).2.store.root ↔ c.Sheltered s i := by
  cases c with
  | createKey oa =>
    refine iff_of_true ?_ trivial
    simp only [ntCall]
    split
    · exact Respects.refl _ _
    · rename_i path _
      have hresp := respects_createOwned (s.tasks i).uid (s.tasks i).uid s.store path
      split_ifs
      · exact Respects.refl _ _
      · split <;> rename_i store heq <;> rw [heq] at hresp <;> exact hresp
  | openKey oa =>
    refine iff_of_true ?_ trivial
    simp only [ntCall]
    split
    · exact Respects.refl _ _
    · split_ifs <;> exact Respects.refl _ _
  | setValueKey h name ty data =>
    refine iff_of_true ?_ trivial
    simp only [ntCall]
    split
    · exact Respects.refl _ _
    · split_ifs with hok
      · exact respects_setValue hu hok _ _ _
      · exact Respects.refl _ _
  | deleteKey h =>
    simp only [ntCall, NtCall.Sheltered]
    split
    · rename_i hnone
      refine iff_of_true (Respects.refl _ _) fun path target hpath => ?_
      cases hnone ▸ hpath
    · rename_i path hpath
      split_ifs with hok
      · -- the check passed: the key is there, and it is the caller's
        obtain ⟨target, htgt, howner⟩ := (writeKeyOk_iff hu).1 hok
        rw [respects_deleteKey_iff htgt]
        constructor
        · rintro hown path' target' hpath' hne htarget' -
          obtain rfl := some.inj (hpath.symm.trans hpath')
          obtain rfl := some.inj (htgt.symm.trans htarget')
          exact hown hne
        · exact fun hown hne => hown path target hpath hne htgt howner
      · refine iff_of_true (Respects.refl _ _) fun path' target hpath' _ htgt howner => ?_
        obtain rfl := some.inj (hpath.symm.trans hpath')
        exact absurd ((writeKeyOk_iff hu).2 ⟨target, htgt, howner⟩) hok

/-! ## Sequences of calls -/

/-- `P` holds of every call of a sequence, in the state in which it is made. -/
def EachCall (P : NtState → Nat → NtCall → Prop) (s : NtState)
    (calls : List (Nat × NtCall)) : Prop :=
  ∀ pre c post, calls = pre ++ c :: post → P (ntRun s pre) c.1 c.2

/-- The call is by the system account, or it leaves the keys of other owners alone. -/
def LeavesOthers (s : NtState) (i : Nat) (c : NtCall) : Prop :=
  (s.tasks i).uid ≠ 0 → Respects (s.tasks i).uid s.store.root (ntCall s i c).2.store.root

/-- From any registry, whoever the callers are: every call leaves the keys of other owners alone
exactly when no call deletes a key of its caller's with another owner's key below it. -/
theorem registry_ownership_iff (s : NtState) (calls : List (Nat × NtCall)) :
    EachCall LeavesOthers s calls ↔
      EachCall (fun s i c => (s.tasks i).uid ≠ 0 → c.Sheltered s i) s calls := by
  constructor
  · intro h pre c post heq hu
    exact (ntCall_respects_iff hu c.2).1 (h pre c post heq hu)
  · intro h pre c post heq hu
    exact (ntCall_respects_iff hu c.2).2 (h pre c post heq hu)

/-! ## A system key below a user's key -/

/-- A hive file in which `app` is owned by uid 1000. -/
def appHive : Bytes := ascii "thos-hive v1\nK 617070\nO 617070 1000\n"

/-- The files of a disk with that hive. -/
def appFiles : Bytes → Option Bytes :=
  fun f => if f = ascii "/etc/thos/registry/software.hiv" then some appHive else none

/-- Task 0 is of uid 1000, all others are of the system account. -/
def userTasks : Nat → Task
  | 0 => ⟨1000, []⟩
  | _ => systemTask

/-- The system account makes `app\sys`; then uid 1000 opens `app` and deletes it. -/
def deleteApp : List (Nat × NtCall) :=
  [(1, .createKey ⟨0, utf16 "\\Registry\\Machine\\Software\\App\\Sys"⟩),
   (0, .openKey ⟨0, utf16 "\\Registry\\Machine\\Software\\App"⟩), (0, .deleteKey 0)]

/-- The tree after a boot from that disk. -/
def appRoot : Key :=
  .mk [(ascii "machine",
      .mk [(ascii "software", .mk [(ascii "app", .owned 1000)] [] 0), (ascii "system", .new)] [] 0),
    (ascii "user", .new)] [] 0

/-- `machine\software\app\sys`. -/
def sysComps : List Bytes := [ascii "machine", ascii "software", ascii "app", ascii "sys"]

/-- Booted from that disk, uid 1000 removes a key of the system account. -/
theorem system_key_removed : boot appFiles = some appRoot ∧
      (find (ntRun ⟨⟨appRoot, appFiles⟩, userTasks⟩ (deleteApp.take 2)).store.root sysComps).map
        Key.ownerUid = some 0 ∧
      find (ntRun ⟨⟨appRoot, appFiles⟩, userTasks⟩ deleteApp).store.root sysComps = none ∧
      ¬ EachCall LeavesOthers ⟨⟨appRoot, appFiles⟩, userTasks⟩ deleteApp := by
  have hold : (find (ntRun ⟨⟨appRoot, appFiles⟩, userTasks⟩
    (deleteApp.take 2)).store.root sysComps).map
      Key.ownerUid = some 0 := by decide +kernel
  have hgone : (find (ntRun ⟨⟨appRoot, appFiles⟩, userTasks⟩ deleteApp).store.root
    sysComps).isNone = true := by
    decide +kernel
  refine ⟨rfl, hold, isNone_iff_eq_none.1 hgone, fun h => ?_⟩
  have hcall := h (deleteApp.take 2) (0, .deleteKey 0) [] rfl (by decide +kernel)
  obtain ⟨k, hk, howner⟩ := map_eq_some_iff.1 hold
  obtain ⟨k', hk', -⟩ := hcall sysComps k hk (by rw [howner]; decide +kernel)
  change find (ntRun ⟨⟨appRoot, appFiles⟩, userTasks⟩ deleteApp).store.root sysComps =
    some k' at hk'
  rw [isNone_iff_eq_none.1 hgone] at hk'
  cases hk'

end Thos.Registry
