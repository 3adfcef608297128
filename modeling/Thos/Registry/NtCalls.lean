import Thos.Registry.Store

/-!
# The registry system calls

`NtCreateKey`, `NtOpenKey`, `NtSetValueKey` and `NtDeleteKey` over the store. A task
holds key handles, each the canonical path of the key it was opened on; a name that
comes from user memory is a list of UTF-16 units of which at most 260 are read.

Every tree these calls build is well formed (`ntRun_wf`), so the characterisation of
the hive round trip applies to it (`hive_comes_back_iff`).
-/

set_option autoImplicit false

namespace Thos.Registry

open Thos.Lib Key

/-! ## Names and handles -/

/-- `unicode_string_ascii`: at most 260 code units, non-ASCII ones become `?`. -/
def unicodeStringAscii (units : List UInt16) : Str where
  bytes := (units.take 260).map fun c => if c < 0x80 then c.toUInt8 else 63
  utf8 := by
    refine Utf8.valid_of_ascii fun b hb => ?_
    obtain ⟨c, -, rfl⟩ := List.mem_map.1 hb
    split_ifs with h
    · simp only [UInt16.lt_iff_toNat_lt, UInt8.lt_iff_toNat_lt, UInt16.toNat_toUInt8,
        UInt16.reduceToNat, UInt8.reduceToNat] at h ⊢
      omega
    · decide

theorem valid_canon (path : Str) : Utf8.valid (canon path.bytes) = true :=
  valid_joinPath fun _ hc => keyName_of_mem_components path.utf8 hc

/-- What a key handle stores. -/
def canonStr (path : Str) : Str := ⟨canon path.bytes, valid_canon path⟩

/-- `{base}\{name}`. -/
def joinStr (base name : Str) : Str where
  bytes := base.bytes ++ 92 :: name.bytes
  utf8 := by rw [Utf8.valid_append_ascii _ _ (by decide), base.utf8, name.utf8]; rfl

/-! ### What a handle names

A handle keeps the canonical path and every call parses it again. `components` then
drops a leading `registry` a second time, so the key is found again exactly if its
path below the root does not begin with that name. -/

theorem components_canonStr (p : Str) :
    components (canonStr p).bytes = stripRegistry (components p.bytes) :=
  components_joinPath fun _ hc => keyName_of_mem_components p.utf8 hc

theorem components_joinStr (b n : Str) : components (joinStr (canonStr b) n).bytes =
      stripRegistry (components b.bytes ++ parts n.bytes) := by
  have hbase : parts (canonStr b).bytes = components b.bytes :=
    parts_joinPath fun _ hc => keyName_of_mem_components b.utf8 hc
  change stripRegistry (parts ((canonStr b).bytes ++ 92 :: n.bytes)) = _
  rw [parts_append, hbase]

theorem calls_congr {p q : Str} (h : components p.bytes = components q.bytes) (s : Store)
    (uid : UInt32) (name : Str) (ty : UInt32) (data : Bytes) :
    openKey s.root p = openKey s.root q ∧ writeKeyOk s.root p uid = writeKeyOk s.root q uid ∧
      setValue s p name ty data = setValue s q name ty data ∧ deleteKey s p = deleteKey s q := by
  simp [openKey, writeKeyOk, ownerOf, setValue, deleteKey, h]

/-- The canonical path has the components of the path it was made from, a name below a
handle has the components of the handle's path and then its own, and every call through
the handle acts on the key it was opened on, exactly if no `registry` stands first once
the leading one is dropped. -/
theorem handle_names_key_iff (p b n : Str) : (components (canonStr p).bytes = components p.bytes ∧
        components (joinStr (canonStr b) n).bytes = components b.bytes ++ parts n.bytes ∧
        ∀ (s : Store) (uid : UInt32) (name : Str) (ty : UInt32) (data : Bytes),
          openKey s.root (canonStr p) = openKey s.root p ∧
          writeKeyOk s.root (canonStr p) uid = writeKeyOk s.root p uid ∧
          setValue s (canonStr p) name ty data = setValue s p name ty data ∧
          deleteKey s (canonStr p) = deleteKey s p) ↔
      (components p.bytes).head? ≠ some (ascii "registry") ∧
        (components b.bytes ++ parts n.bytes).head? ≠ some (ascii "registry") := by
  rw [components_joinStr, stripRegistry_eq_self_iff]
  constructor
  · rintro ⟨hp, hn, -⟩
    rw [components_canonStr, stripRegistry_eq_self_iff] at hp
    exact ⟨hp, hn⟩
  · rintro ⟨hp, hn⟩
    have hcanon : components (canonStr p).bytes = components p.bytes := by
      rw [components_canonStr, stripRegistry_eq_self_iff]
      exact hp
    exact ⟨hcanon, hn, calls_congr hcanon⟩

/-- A task as the registry calls see it. -/
structure Task where
  uid : UInt32
  handles : List (Option Str)

/-- `handle_regkey`. -/
def Task.regkey (t : Task) (h : Nat) : Option Str := t.handles[h]?.join

/-- `handle_alloc_regkey`: the lowest free slot. -/
def Task.allocRegkey (t : Task) (path : Str) : Task :=
  match t.handles.findIdx? Option.isNone with
  | some i => { t with handles := t.handles.set i (some path) }
  | none => { t with handles := t.handles ++ [some path] }

/-! ## Calls -/

/-- An `OBJECT_ATTRIBUTES`: `RootDirectory` (0 when unset) and `ObjectName`. -/
structure ObjectAttributes where
  root : Nat
  name : List UInt16

def oaPath (t : Task) (oa : ObjectAttributes) : Option Str :=
  let name := unicodeStringAscii oa.name
  if name.bytes = [] ∧ oa.root = 0 then none
  else if oa.root ≠ 0 then (t.regkey oa.root).map fun base => joinStr base name
  else some name

/-- The status codes of the calls below. -/
inductive NtStatus
  | success
  | invalidParameter
  | accessDenied
  | invalidHandle
  | objectNameNotFound
  deriving DecidableEq

/-- The registry calls of `nt.rs` that make, open, change or delete keys. -/
inductive NtCall
  | createKey (oa : ObjectAttributes)
  | openKey (oa : ObjectAttributes)
  | setValueKey (handle : Nat) (name : List UInt16) (ty : UInt32) (data : Bytes)
  | deleteKey (handle : Nat)

/-- The store and every task. -/
structure NtState where
  store : Store
  tasks : Nat → Task

/-- `status(ok, STATUS_OBJECT_NAME_NOT_FOUND)`. -/
def statusOf (ok : Bool) : NtStatus := if ok then .success else .objectNameNotFound

def ntCall (s : NtState) (i : Nat) : NtCall → NtStatus × NtState
  | .createKey oa =>
    match oaPath (s.tasks i) oa with
    | none => (.invalidParameter, s)
    | some path =>
      let uid := (s.tasks i).uid
      -- opening an existing key is a read; only making a new one is checked
      if ¬ openKey s.store.root path ∧ ¬ createWriteOk s.store.root path uid then
        (.accessDenied, s)
      else
        match createOwned s.store path uid with
        | (false, store) => (.invalidParameter, { s with store })
        | (true, store) =>
          (.success, ⟨store, Function.update s.tasks i ((s.tasks i).allocRegkey (canonStr path))⟩)
  | .openKey oa =>
    match oaPath (s.tasks i) oa with
    | none => (.invalidParameter, s)
    | some path =>
      if ¬ openKey s.store.root path then (.objectNameNotFound, s)
      else
        (.success, ⟨s.store, Function.update s.tasks i ((s.tasks i).allocRegkey (canonStr path))⟩)
  | .setValueKey h name ty data =>
    match (s.tasks i).regkey h with
    | none => (.invalidHandle, s)
    | some path =>
      if ¬ writeKeyOk s.store.root path (s.tasks i).uid then (.accessDenied, s)
      else
        let (ok, store) := setValue s.store path (unicodeStringAscii name) ty data
        (statusOf ok, { s with store })
  | .deleteKey h =>
    match (s.tasks i).regkey h with
    | none => (.invalidHandle, s)
    | some path =>
      if ¬ writeKeyOk s.store.root path (s.tasks i).uid then (.accessDenied, s)
      else
        let (ok, store) := deleteKey s.store path
        (statusOf ok, { s with store })

/-- Calls one after another, each with the task that makes it. -/
def ntRun (s : NtState) (calls : List (Nat × NtCall)) : NtState :=
  calls.foldl (fun s c => (ntCall s c.1 c.2).2) s

/-- First boot: the seeded roots, no hive file yet. -/
def ntBoot (tasks : Nat → Task) : NtState := ⟨⟨seed new, fun _ => none⟩, tasks⟩

/-! ## Well-formedness along a run -/

/-- A change that keeps trees well formed. -/
structure Change.Wf (c : Change) : Prop where
  names : ∀ n ∈ c.path, KeyName n
  edit : ∀ k, k.Wf → (c.edit k).Wf

variable {s : Store}

theorem Change.Wf.apply {c : Change} (hc : c.Wf) (hs : s.root.Wf) : (c.apply s).root.Wf := by
  rw [Change.apply, persist_root]
  exact wf_make hs hc.names c.uid hc.edit

theorem wf_createChange {path : Str} (uid : UInt32) :
    (createChange (components path.bytes) uid).Wf :=
  ⟨fun _ hn => keyName_of_mem_components path.utf8 hn, fun _ hk => hk⟩

theorem wf_setChange {path name : Str} (v : Value) :
    (setChange (components path.bytes) (toAsciiLowercase name.bytes) v).Wf :=
  ⟨fun _ hn => keyName_of_mem_components path.utf8 hn, fun _ hk =>
    wf_insertValue hk (toAsciiLowercase_idem _) ((valid_toAsciiLowercase _).trans name.utf8) v⟩

theorem wf_deleteChange {path : Str} {parent : List Bytes} {leaf : Bytes}
    (h : components path.bytes = parent ++ [leaf]) : (deleteChange parent leaf).Wf :=
  ⟨fun _ hn => keyName_of_mem_components path.utf8 (h ▸ List.mem_append_left _ hn),
    fun _ hk => wf_removeSubkey hk leaf⟩

theorem wf_createOwned (hs : s.root.Wf) (path : Str) (uid : UInt32) :
    (createOwned s path uid).2.root.Wf := by
  rw [createOwned_eq]
  split_ifs
  · exact hs
  · exact (wf_createChange uid).apply hs

theorem wf_setValue (hs : s.root.Wf) (path name : Str) (ty : UInt32) (data : Bytes) :
    (setValue s path name ty data).2.root.Wf := by
  rw [setValue_eq]
  split_ifs
  · exact (wf_setChange _).apply hs
  · exact hs

theorem wf_deleteKey (hs : s.root.Wf) (path : Str) : (deleteKey s path).2.root.Wf := by
  rcases deleteKey_eq s path with ⟨heq, -⟩ | ⟨parent, leaf, hcomps, -, heq⟩
  · rw [heq]
    exact hs
  · rw [heq]
    exact (wf_deleteChange hcomps).apply hs

theorem wf_seed : (seed new).Wf := by
  have hascii : ∀ h ∈ ["machine", "user", "machine\\software", "machine\\system"],
      Utf8.valid (ascii h) = true := by decide
  have hfold : ∀ (l : List String) (k : Key), (∀ h ∈ l, Utf8.valid (ascii h) = true) → k.Wf →
      (l.foldl (fun r h => make r (components (ascii h)) 0 id) k).Wf := by
    intro l
    induction l with
    | nil => exact fun k _ hk => hk
    | cons h l ih =>
      intro k hl hk
      refine ih _ (fun h' hh' => hl h' (List.mem_cons_of_mem _ hh')) (wf_make hk ?_ 0 ?_)
      · exact fun c hc => keyName_of_mem_components (hl h List.mem_cons_self) hc
      · exact fun k hk => hk
  exact hfold _ _ hascii wf_new

theorem ntCall_wf {s : NtState} (hs : s.store.root.Wf) (i : Nat) (c : NtCall) :
    (ntCall s i c).2.store.root.Wf := by
  cases c with
  | createKey oa =>
    simp only [ntCall]
    split
    · exact hs
    · rename_i path _
      have hwf := wf_createOwned hs path (s.tasks i).uid
      split_ifs
      · exact hs
      · split <;> rename_i store heq <;> rw [heq] at hwf <;> exact hwf
  | openKey oa =>
    simp only [ntCall]
    split
    · exact hs
    · split_ifs <;> exact hs
  | setValueKey h name ty data =>
    simp only [ntCall]
    split
    · exact hs
    · split_ifs
      · exact wf_setValue hs _ _ ty data
      · exact hs
  | deleteKey h =>
    simp only [ntCall]
    split
    · exact hs
    · split_ifs
      · exact wf_deleteKey hs _
      · exact hs

theorem ntRun_wf {s : NtState} (hs : s.store.root.Wf) (calls : List (Nat × NtCall)) :
    (ntRun s calls).store.root.Wf := by
  induction calls generalizing s with
  | nil => exact hs
  | cons c calls ih => exact ih (ntCall_wf hs c.1 c.2)

/-! ## The hive round trip -/

/-- For every hive of every tree the calls build, reading its file back into a fresh
key gives exactly the same tree if and only if the hive root has no direct subkey
`registry`: `deserialize_hive` parses the relative paths with `components`, which
drops that name. -/
theorem hive_comes_back_iff (tasks : Nat → Task) (calls : List (Nat × NtCall)) {h : Hive}
    {k : Key} (hk : find (ntRun (ntBoot tasks) calls).store.root h.root = some k) :
    deserializeHive new (serializeHive k) = some k ↔
      OrdMap.get? (ascii "registry") k.subkeys = none :=
  roundTrip_iff (wf_find (ntRun_wf wf_seed calls) hk)

/-- A task of the system account without handles. -/
def systemTask : Task := ⟨0, []⟩

/-- The UTF-16 units of an ASCII literal. -/
def utf16 (s : String) : List UInt16 := s.toList.map fun c => c.toNat.toUInt16

/-- `NtCreateKey` of `\Registry\Machine\Software\Registry`. -/
def createRegistrySubkey : NtCall := .createKey ⟨0, utf16 "\\Registry\\Machine\\Software\\Registry"⟩

/-- That key is in the tree, and the hive that holds it comes back empty. -/
theorem registry_subkey_is_lost :
    find (ntRun (ntBoot fun _ => systemTask) [(0, createRegistrySubkey)]).store.root
        [ascii "machine", ascii "software"] = some (.mk [(ascii "registry", .new)] [] 0) ∧
    deserializeHive new (serializeHive (.mk [(ascii "registry", .new)] [] 0)) = some new ∧
    (some new : Option Key) ≠ some (.mk [(ascii "registry", .new)] [] 0) :=
  ⟨rfl, rfl, by simp [new]⟩

/-- `NtCreateKey` of `\Registry\Registry\Machine`, then a value through the handle it
returned. -/
def setThroughHandle : List (Nat × NtCall) :=
  [(0, .createKey ⟨0, utf16 "\\Registry\\Registry\\Machine"⟩),
   (0, .setValueKey 0 (utf16 "Path") 1 [67, 58])]

/-- The key that was created has no value; the value is on `\Registry\Machine`. -/
theorem handle_names_another_key :
    (find (ntRun (ntBoot fun _ => systemTask) setThroughHandle).store.root
        [ascii "registry", ascii "machine"]).map values = some [] ∧
    (find (ntRun (ntBoot fun _ => systemTask) setThroughHandle).store.root
        [ascii "machine"]).map values = some [(ascii "path", ⟨1, [67, 58]⟩)] ∧
    components (canon (ascii "\\Registry\\Registry\\Machine")) ≠
      components (ascii "\\Registry\\Registry\\Machine") :=
  ⟨by decide +kernel, by decide +kernel, by decide +kernel⟩

/-- `NtCreateKey` of `\Registry\Machine\Software\App`, then a value on it. -/
def createApp : List (Nat × NtCall) :=
  [(0, .createKey ⟨0, utf16 "\\Registry\\Machine\\Software\\App"⟩),
   (0, .setValueKey 0 (utf16 "Path") 1 [67, 58])]

theorem hive_of_app_comes_back : deserializeHive new (serializeHive
      (.mk [(ascii "app", .mk [] [(ascii "path", ⟨1, [67, 58]⟩)] 0)] [] 0)) =
      some (.mk [(ascii "app", .mk [] [(ascii "path", ⟨1, [67, 58]⟩)] 0)] [] 0) :=
  (@hive_comes_back_iff (fun _ => systemTask) createApp
    ⟨[ascii "machine", ascii "software"], ascii "/etc/thos/registry/software.hiv"⟩ _ rfl).2
    (by decide)

end Thos.Registry
