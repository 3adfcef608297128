import Thos.Lib.Run
import Thos.Registry.NtCalls

/-!
# What survives a reboot

A run of registry calls and reboots keeps, for every hive, the file equal to the
serialisation of the subtree in memory, as long as no call deletes a hive root (or a
key above one) and no call makes a key `registry` directly under a hive root. Each
such call breaks it: `persist` finds no hive root to write and leaves the old file,
or writes a file that does not read back.
-/

set_option autoImplicit false

namespace Thos.Registry

open Thos.Lib Function List Key Option

/-! ## Steps -/

/-- The mutations of the registry, and a reboot. -/
inductive Op
  | create (path : Str) (uid : UInt32)
  | setValue (path name : Str) (ty : UInt32) (data : Bytes)
  | delete (path : Str)
  | reboot

/-- One step; `none` is a panic while a hive file is read. -/
def Op.step (s : Store) : Op → Option Store
  | .create path uid => some (createOwned s path uid).2
  | .setValue path name ty data => some (Thos.Registry.setValue s path name ty data).2
  | .delete path => some (deleteKey s path).2
  | .reboot => (boot s.files).map fun root => { s with root }

/-- After a reboot every hive root has the contents it has now. -/
def Durable (s : Store) : Prop :=
  ∃ root, boot s.files = some root ∧ ∀ h ∈ hives, find root h.root = find s.root h.root

/-- A call that makes no key `registry` directly under a hive root and deletes no
hive root and no key above one. -/
def Op.Safe (s : Store) : Op → Prop
  | .create path _ =>
    ∀ h ∈ hives, ¬ h.root ++ [ascii "registry"] <+: components path.bytes
  | .delete path =>
    components path.bytes ≠ [] → ∀ h ∈ hives, components path.bytes <+: h.root →
      find s.root (components path.bytes) = none
  | _ => True

/-- First boot: no hive has a file. -/
structure FirstBoot (s : Store) : Prop where
  root : s.root = seed new
  files : ∀ h ∈ hives, s.files h.file = none

/-! ## The hive table -/

variable {h : Hive} {comps : List Bytes} {s : Store}

section

variable (hh : h ∈ hives)
include hh

theorem hive_unique {h' : Hive} (hh' : h' ∈ hives) (hp : h.root <+: h'.root) : h = h' := by
  have hall : ∀ h ∈ hives, ∀ h' ∈ hives, h.root <+: h'.root → h = h' := by decide
  exact hall h hh h' hh' hp

theorem hive_file_inj {h' : Hive} (hh' : h' ∈ hives) (hf : h.file = h'.file) : h = h' := by
  have hall : ∀ h ∈ hives, ∀ h' ∈ hives, h.file = h'.file → h = h' := by decide
  exact hall h hh h' hh' hf

theorem hive_root_names : ∀ c ∈ h.root, KeyName c := by
  have hroot : ∀ h ∈ hives, components (joinPath h.root) = h.root ∧
      Utf8.valid (joinPath h.root) = true := by decide
  intro c hc
  rw [← (hroot h hh).1] at hc
  exact keyName_of_mem_components (hroot h hh).2 hc

theorem find_seed : find (seed new) h.root = some new := by
  simp only [hives, mem_cons, not_mem_nil, or_false] at hh
  rcases hh with rfl | rfl | rfl <;> rfl

theorem find?_underHive (hp : h.root <+: comps) :
    hives.find? (fun h => underHive comps h.root) = some h := by
  cases hf : hives.find? (fun h => underHive comps h.root) with
  | none =>
    have hnone := find?_eq_none.1 hf h hh
    exact absurd ((underHive_iff comps h.root).2 hp) hnone
  | some h' =>
    have hh' := mem_of_find?_eq_some hf
    have hp' := (underHive_iff comps h'.root).1 (by simpa using find?_some hf)
    -- two prefixes of one path are comparable
    rcases prefix_or_prefix_of_prefix hp hp' with hle | hle
    · rw [hive_unique hh hh' hle]
    · rw [hive_unique hh' hh hle]

theorem persist_files_under (hp : h.root <+: comps) {k : Key} (hk : find s.root h.root = some k) :
    (persist s comps).files = update s.files h.file (some (serializeHive k)) := by
  simp only [persist, find?_underHive hh hp, hk]

theorem persist_files_of_missing (hp : h.root <+: comps)
    (hk : find s.root h.root = none) : (persist s comps).files h.file = s.files h.file := by
  simp only [persist, find?_underHive hh hp, hk]

theorem persist_files_of_not_under (hp : ¬ h.root <+: comps) :
    (persist s comps).files h.file = s.files h.file := by
  unfold persist
  split
  · rfl
  · rename_i h' hf
    have hh' := mem_of_find?_eq_some hf
    have hp' := (underHive_iff comps h'.root).1 (by simpa using find?_some hf)
    split
    · rfl
    · refine update_of_ne (fun heq => hp ?_) ..
      rwa [hive_file_inj hh hh' heq]

end

/-! ## Booting -/

/-- The subtree the file of a hive stands for. -/
def fileKey (files : Bytes → Option Bytes) (h : Hive) : Option Key :=
  match files h.file with
  | none => some new
  | some bytes => deserializeHive new bytes

theorem foldlM_loadHive {files : Bytes → Option Bytes} {K : Hive → Key} :
    ∀ (hs : List Hive) (root : Key), (∀ h ∈ hs, h ∈ hives) → hs.Nodup →
      (∀ h ∈ hs, fileKey files h = some (K h)) → (∀ h ∈ hives, (find root h.root).isSome) →
      (∀ h ∈ hs, find root h.root = some new) →
      ∃ root', hs.foldlM (loadHive files) root = some root' ∧
        (∀ h ∈ hs, find root' h.root = some (K h)) ∧
        (∀ h ∈ hives, h ∉ hs → find root' h.root = find root h.root) ∧
        (root.Wf → (∀ h ∈ hs, (K h).Wf) → root'.Wf) := by
  intro hs
  induction hs with
  | nil => exact fun root _ _ _ _ _ => ⟨root, rfl, by simp, fun _ _ _ => rfl, fun h _ => h⟩
  | cons h hs ih =>
    intro root hmem hnodup hfile hsome hseed
    obtain ⟨hnotin, hnodup⟩ := nodup_cons.1 hnodup
    have hh := hmem h mem_cons_self
    have hrest : ∀ h' ∈ hs, h' ∈ h :: hs := fun h' hh' => mem_cons_of_mem _ hh'
    -- one round changes the subtree of `h` and nothing else
    have hround : ∃ mid, loadHive files root h = some mid ∧ find mid h.root = some (K h) ∧
        (∀ h' ∈ hives, h' ≠ h → find mid h'.root = find root h'.root) ∧
        (root.Wf → (K h).Wf → mid.Wf) := by
      have hK := hfile h mem_cons_self
      unfold fileKey at hK
      unfold loadHive
      cases hbytes : files h.file with
      | none =>
        rw [hbytes, some.injEq] at hK
        exact ⟨root, rfl, hK ▸ hseed h mem_cons_self, fun _ _ _ => rfl, fun h _ => h⟩
      | some bytes =>
        rw [hbytes] at hK
        refine ⟨make root h.root 0 fun _ => K h, by simp [hK], by simp [find_make_self], ?_, ?_⟩
        · intro h' hh' hne
          refine find_make_of_apart (fun hp => hne ?_) (fun hp => hne ?_) 0 _ (hsome h' hh')
          · exact (hive_unique hh hh' hp).symm
          · exact hive_unique hh' hh hp
        · exact fun hroot hKwf => wf_make hroot (hive_root_names hh) 0 fun _ _ => hKwf
    obtain ⟨mid, hload, hself, hother, hwf⟩ := hround
    have hne : ∀ h' ∈ hs, h' ≠ h := fun h' hh' heq => hnotin (heq ▸ hh')
    obtain ⟨root', hrun, hfound, hkept, hwf'⟩ := ih mid (fun h' hh' => hmem h' (hrest h' hh'))
      hnodup (fun h' hh' => hfile h' (hrest h' hh'))
      (fun h' hh' => by
        by_cases heq : h' = h
        · rw [heq, hself]
          rfl
        · rw [hother h' hh' heq]
          exact hsome h' hh')
      (fun h' hh' => by
        rw [hother h' (hmem h' (hrest h' hh')) (hne h' hh')]
        exact hseed h' (hrest h' hh'))
    refine ⟨root', ?_, forall_mem_cons.2 ⟨by rw [hkept h hh hnotin, hself], hfound⟩, ?_, ?_⟩
    · rw [foldlM_cons, hload]
      exact hrun
    · intro h' hh' hnot
      simp only [mem_cons, not_or] at hnot
      rw [hkept h' hh' hnot.2, hother h' hh' hnot.1]
    · exact fun hroot hKs => hwf' (hwf hroot (hKs h mem_cons_self)) fun h' hh' =>
        hKs h' (hrest h' hh')

theorem boot_eq {files : Bytes → Option Bytes} {K : Hive → Key}
    (hfile : ∀ h ∈ hives, fileKey files h = some (K h)) :
    ∃ root, boot files = some root ∧ (∀ h ∈ hives, find root h.root = some (K h)) ∧
      ((∀ h ∈ hives, (K h).Wf) → root.Wf) := by
  obtain ⟨root, hrun, hfound, -, hwf⟩ := foldlM_loadHive hives (seed new) (fun _ hh => hh)
    (by decide) hfile (fun h hh => by rw [find_seed hh]; rfl) (fun h hh => find_seed hh)
  exact ⟨root, hrun, hfound, hwf wf_seed⟩

/-! ## The invariant -/

/-- Every hive root exists, its file (if any) is its serialisation, and it has no
subkey that would not read back. -/
structure Inv (s : Store) : Prop where
  wf : s.root.Wf
  hive : ∀ h ∈ hives, ∃ k, find s.root h.root = some k ∧
    (s.files h.file = some (serializeHive k) ∨ s.files h.file = none ∧ k = new)
  noRegistry : ∀ h ∈ hives, find s.root (h.root ++ [ascii "registry"]) = none

variable (hs : Inv s)
include hs

theorem Inv.isSome (hh : h ∈ hives) : (find s.root h.root).isSome := by
  obtain ⟨k, hk, -⟩ := hs.hive h hh
  rw [hk]
  rfl

omit hs in
theorem get?_registry {root k : Key} {p : List Bytes} (hk : find root p = some k) :
    OrdMap.get? (ascii "registry") k.subkeys = find root (p ++ [ascii "registry"]) := by
  rw [find_append, hk, bind_some, find]
  cases OrdMap.get? (ascii "registry") k.subkeys <;> rfl

theorem Inv.boot : ∃ root, boot s.files = some root ∧ root.Wf ∧
      ∀ h ∈ hives, find root h.root = find s.root h.root := by
  have hfile : ∀ h ∈ hives, fileKey s.files h = some ((find s.root h.root).getD new) := by
    intro h hh
    obtain ⟨k, hk, hfiles⟩ := hs.hive h hh
    rw [hk, getD_some, fileKey]
    rcases hfiles with hfiles | ⟨hfiles, rfl⟩
    · rw [hfiles]
      refine (roundTrip_iff (wf_find hs.wf hk)).2 ?_
      rw [get?_registry hk, hs.noRegistry h hh]
    · rw [hfiles]
  obtain ⟨root, hboot, hfound, hwf⟩ := boot_eq hfile
  have hget : ∀ h ∈ hives, find s.root h.root = some ((find s.root h.root).getD new) := by
    intro h hh
    obtain ⟨k, hk, -⟩ := hs.hive h hh
    rw [hk]
    rfl
  refine ⟨root, hboot, hwf fun h hh => wf_find hs.wf (hget h hh), fun h hh => ?_⟩
  rw [hfound h hh, ← hget h hh]

theorem Inv.durable : Durable s := by
  obtain ⟨root, hboot, -, hfound⟩ := hs.boot
  exact ⟨root, hboot, hfound⟩

omit hs in
theorem Inv.of_firstBoot (hs : FirstBoot s) : Inv s := by
  obtain ⟨root, files⟩ := s
  obtain ⟨rfl, hfiles⟩ := hs
  refine ⟨wf_seed, fun h hh => ⟨new, find_seed hh, .inr ⟨hfiles h hh, rfl⟩⟩, ?_⟩
  intro h hh
  rw [find_append, find_seed hh]
  rfl

variable {c : Change}

theorem Inv.change (hc : c.Wf)
    (hsome : ∀ h ∈ hives, (find (make s.root c.path c.uid c.edit) h.root).isSome)
    (hframe : ∀ h ∈ hives, ¬ h.root <+: c.comps →
      find (make s.root c.path c.uid c.edit) h.root = find s.root h.root) (hreg : ∀ h ∈ hives,
      (find (make s.root c.path c.uid c.edit) (h.root ++ [ascii "registry"])).isSome →
        (find s.root (h.root ++ [ascii "registry"])).isSome) : Inv (c.apply s) := by
  refine ⟨hc.apply hs.wf, fun h hh => ?_, fun h hh => ?_⟩
  · rw [Change.apply, persist_root]
    by_cases hp : h.root <+: c.comps
    · obtain ⟨k, hk⟩ := isSome_iff_exists.1 (hsome h hh)
      refine ⟨k, hk, .inl ?_⟩
      rw [persist_files_under hh hp hk, update_self]
    · rw [persist_files_of_not_under hh hp, hframe h hh hp]
      exact hs.hive h hh
  · rw [Change.apply, persist_root, ← not_isSome_iff_eq_none]
    intro hsome
    have hold := hreg h hh hsome
    rw [hs.noRegistry h hh] at hold
    cases hold

omit hs in
theorem find_make_isSome_above {root : Key} {p q : List Bytes} (hqp : q <+: p) (uid : UInt32)
    (f : Key → Key) : (find (make root p uid f) q).isSome := by
  obtain ⟨t, rfl⟩ := hqp
  rw [make_append, find_make_self]
  rfl

theorem Inv.edit (hc : c.Wf) (hpath : c.path = c.comps) (hf : ∀ k, (c.edit k).subkeys = k.subkeys)
    (hreg : ∀ h ∈ hives, h.root ++ [ascii "registry"] <+: c.comps →
      (find s.root (h.root ++ [ascii "registry"])).isSome) : Inv (c.apply s) := by
  have hframe : ∀ h ∈ hives, ¬ h.root <+: c.comps →
      find (make s.root c.path c.uid c.edit) h.root = find s.root h.root := by
    intro h hh hp
    rw [hpath]
    exact find_make_of_subkeys hp c.uid hf (hs.isSome hh)
  refine hs.change hc (fun h hh => ?_) hframe (fun h hh hsome => ?_)
  · by_cases hp : h.root <+: c.comps
    · exact hpath ▸ find_make_isSome_above hp c.uid c.edit
    · rw [hframe h hh hp]
      exact hs.isSome hh
  · rcases find_make_isSome (find_isSome_of_subkeys hf) hsome with hold | hp
    · exact hold
    · exact hreg h hh (hpath ▸ hp)

theorem Inv.delete {parent : List Bytes} {leaf : Bytes}
    (hc : (deleteChange parent leaf).Wf) (hex : (find s.root (parent ++ [leaf])).isSome)
    (hroot : ∀ h ∈ hives, ¬ parent ++ [leaf] <+: h.root) :
    Inv ((deleteChange parent leaf).apply s) := by
  have hframe : ∀ h ∈ hives, ¬ h.root <+: parent ++ [leaf] →
      find (make s.root parent 0 (removeSubkey leaf)) h.root = find s.root h.root :=
    fun h hh hp => find_make_removeSubkey hp (hroot h hh) 0 (hs.isSome hh)
  refine hs.change hc (fun h hh => ?_) hframe (fun h hh hsome => ?_)
  · by_cases hp : h.root <+: parent ++ [leaf]
    · -- the root is not the deleted key, so it is the parent or above it
      rcases prefix_concat_iff.1 hp with heq | hp
      · exact absurd (heq ▸ prefix_rfl) (hroot h hh)
      · exact find_make_isSome_above hp 0 (removeSubkey leaf)
    · exact (hframe h hh hp).symm ▸ hs.isSome hh
  · rcases find_make_isSome (find_isSome_of_removeSubkey leaf) hsome with hold | hp
    · exact hold
    · exact find_isSome_above (hp.trans (prefix_append ..)) hex

/-! ## One step -/

theorem Inv.step {op : Op} (hsafe : op.Safe s) : ∃ s', op.step s = some s' ∧ Inv s' := by
  cases op with
  | create path uid =>
    refine ⟨_, rfl, ?_⟩
    rw [createOwned_eq]
    split_ifs
    · exact hs
    · exact hs.edit (wf_createChange uid) rfl (fun _ => rfl) fun h hh hp =>
        absurd hp (hsafe h hh)
  | setValue path name ty data =>
    refine ⟨_, rfl, ?_⟩
    rw [setValue_eq]
    split_ifs with hex
    · exact hs.edit (wf_setChange _) rfl (subkeys_insertValue _ _) fun h hh hp =>
        find_isSome_above hp hex
    · exact hs
  | delete path =>
    refine ⟨_, rfl, ?_⟩
    rcases deleteKey_eq s path with ⟨heq, -⟩ | ⟨parent, leaf, hcomps, hex, heq⟩
    · rw [heq]
      exact hs
    · rw [heq]
      refine hs.delete (wf_deleteChange hcomps) hex fun h hh hp => ?_
      have hnone := hsafe (by simp [hcomps]) h hh (hcomps ▸ hp)
      rw [hcomps] at hnone
      simp [hnone] at hex
  | reboot =>
    obtain ⟨root, hboot, hwf, hfound⟩ := hs.boot
    refine ⟨{ s with root }, by simp [Op.step, hboot], hwf, fun h hh => ?_, fun h hh => ?_⟩
    · exact (hfound h hh).symm ▸ hs.hive h hh
    · have hold := hs.noRegistry h hh
      rw [find_append] at hold ⊢
      rw [hfound h hh]
      exact hold

theorem Inv.boot_change (hc : c.Wf) : ∃ root, Registry.boot (c.apply s).files = some root ∧
      ∀ h ∈ hives, some ((find root h.root).getD new) = fileKey (c.apply s).files h ∧
        (find root h.root).isSome := by
  have hread : ∀ h ∈ hives, ∃ k, fileKey (c.apply s).files h = some k := by
    intro h hh
    have hser : ∀ {k : Key}, k.Wf → ∃ k', deserializeHive new (serializeHive k) = some k' :=
      fun hk => ⟨_, deserializeHive_serializeHive hk new⟩
    by_cases hp : h.root <+: c.comps ∧ (find (make s.root c.path c.uid c.edit) h.root).isSome
    · obtain ⟨k, hk⟩ := isSome_iff_exists.1 hp.2
      have hwf : k.Wf := wf_find (wf_make hs.wf hc.names c.uid hc.edit) hk
      rw [fileKey, Change.apply, persist_files_under hh hp.1 hk, update_self]
      exact hser hwf
    · have hsame : (c.apply s).files h.file = s.files h.file := by
        by_cases hpre : h.root <+: c.comps
        · have hnone : find (make s.root c.path c.uid c.edit) h.root = none := by
            simpa using fun hsome => hp ⟨hpre, hsome⟩
          exact persist_files_of_missing hh hpre hnone
        · exact persist_files_of_not_under hh hpre
      obtain ⟨k, hk, hfiles⟩ := hs.hive h hh
      rw [fileKey, hsame]
      rcases hfiles with hfiles | ⟨hfiles, -⟩
      · rw [hfiles]
        exact hser (wf_find hs.wf hk)
      · rw [hfiles]
        exact ⟨_, rfl⟩
  choose! K hK using hread
  obtain ⟨root, hboot, hfound, -⟩ := boot_eq hK
  exact ⟨root, hboot, fun h hh => by simp [hfound h hh, hK h hh]⟩

theorem Inv.not_durable_registry {uid : UInt32} (hc : (createChange comps uid).Wf)
    (hh : h ∈ hives) (hp : h.root ++ [ascii "registry"] <+: comps) :
    ¬ Durable ((createChange comps uid).apply s) := by
  rintro ⟨root, hboot, hsame⟩
  obtain ⟨root', hboot', hfile⟩ := hs.boot_change hc
  obtain rfl : root' = root := some.inj (hboot'.symm.trans hboot)
  have hpre : h.root <+: comps := (prefix_append ..).trans hp
  have hsome : (find (make s.root comps uid id) h.root).isSome := find_make_isSome_above hpre uid id
  have hreg : (find (make s.root comps uid id) (h.root ++ [ascii "registry"])).isSome :=
    find_make_isSome_above hp uid id
  obtain ⟨k, hk⟩ := isSome_iff_exists.1 hsome
  have hback : deserializeHive new (serializeHive k) = some k := by
    have hfile := (hfile h hh).1
    rw [hsame h hh, Change.apply, persist_root] at hfile
    simp only [createChange] at hfile
    rw [hk, getD_some, fileKey, persist_files_under hh hpre hk, update_self] at hfile
    exact hfile.symm
  rw [roundTrip_iff (wf_find (wf_make hs.wf hc.names uid hc.edit) hk), get?_registry hk] at hback
  cases hback ▸ hreg

theorem Inv.not_durable_delete {parent : List Bytes} {leaf : Bytes}
    (hc : (deleteChange parent leaf).Wf) (hh : h ∈ hives) (hp : parent ++ [leaf] <+: h.root) :
    ¬ Durable ((deleteChange parent leaf).apply s) := by
  rintro ⟨root, hboot, hsame⟩
  obtain ⟨root', hboot', hfile⟩ := hs.boot_change hc
  obtain rfl : root' = root := some.inj (hboot'.symm.trans hboot)
  have hsome := (hfile h hh).2
  rw [hsame h hh, Change.apply, persist_root] at hsome
  have hleaf := find_isSome_above hp hsome
  simp [deleteChange, find_append, find_make_self, find, OrdMap.get?_erase_self] at hleaf

/-- From a store that keeps the invariant, a step is durable exactly when it is
safe. -/
theorem Inv.durable_step_iff {s' : Store} {op : Op} (hstep : op.step s = some s') :
    Durable s' ↔ op.Safe s := by
  constructor
  · intro hdur
    cases op with
    | create path uid =>
      intro h hh hp
      rw [Op.step, some.injEq, createOwned_eq, if_neg (by
        rintro hnil
        simp [hnil] at hp)] at hstep
      exact hs.not_durable_registry (wf_createChange uid) hh hp (hstep ▸ hdur)
    | delete path =>
      intro hne h hh hp
      rw [Op.step, some.injEq] at hstep
      rcases deleteKey_eq s path with ⟨-, hnil | hnone⟩ | ⟨parent, leaf, hcomps, -, heq⟩
      · exact absurd hnil hne
      · exact hnone
      · rw [heq] at hstep
        exact absurd (hstep ▸ hdur)
          (hs.not_durable_delete (wf_deleteChange hcomps) hh (hcomps ▸ hp))
    | setValue path name ty data => trivial
    | reboot => trivial
  · intro hsafe
    obtain ⟨s'', hstep'', hinv⟩ := hs.step hsafe
    obtain rfl : s'' = s' := some.inj (hstep''.symm.trans hstep)
    exact hinv.durable

/-! ## Runs -/

/-- A run of safe calls and reboots. -/
abbrev SafeRun : Store → Store → Prop := Run Op.step fun s op => op.Safe s

theorem Inv.run {s' : Store} (hrun : SafeRun s s') : Inv s' := by
  refine hrun.invariant (fun s op s' hs hsafe hstep => ?_) hs
  obtain ⟨t, hstep', hinv⟩ := hs.step hsafe
  obtain rfl : t = s' := some.inj (hstep'.symm.trans hstep)
  exact hinv

omit hs

/-- In every run of safe calls and reboots from the first boot, each store reached
gives its hives back after a reboot, and the next call keeps that so exactly when it
is safe. -/
theorem registry_durable {s₀ s : Store} (hboot : FirstBoot s₀) (hrun : SafeRun s₀ s) :
    Durable s ∧ ∀ (op : Op) (s' : Store), op.step s = some s' → (Durable s' ↔ op.Safe s) := by
  have hinv := (Inv.of_firstBoot hboot).run hrun
  exact ⟨hinv.durable, fun op s' hstep => hinv.durable_step_iff hstep⟩

/-- The store of a first boot on an empty disk. -/
def firstStore : Store := ⟨seed new, fun _ => none⟩

def appPath : Str := ⟨ascii "machine\\software\\app", by decide⟩

def softwarePath : Str := ⟨ascii "machine\\software", by decide⟩

theorem registry_durable_create : Durable (createOwned firstStore appPath 1000).2 :=
  (registry_durable ⟨rfl, fun _ _ => rfl⟩ (.single (.create appPath 1000) (by
    change ∀ h ∈ hives, ¬ h.root ++ [ascii "registry"] <+: components appPath.bytes
    decide) rfl)).1

/-- Make `machine\software\app`, then delete `machine\software`. -/
def deletedHive : Store := (deleteKey (createOwned firstStore appPath 0).2 softwarePath).2

/-- The hive root is gone from the tree, but its file is not: after a reboot the
deleted key is back. -/
theorem deleted_hive_comes_back : find deletedHive.root (components softwarePath.bytes) = none ∧
      ((boot deletedHive.files).bind fun root => find root (components appPath.bytes)).isSome ∧
      ¬ Durable deletedHive := by
  have hgone : (find deletedHive.root (components softwarePath.bytes)).isNone = true := by
    decide +kernel
  have hback : ((boot deletedHive.files).bind fun root =>
      find root (components appPath.bytes)).isSome = true := by decide +kernel
  refine ⟨isNone_iff_eq_none.1 hgone, hback, ?_⟩
  rintro ⟨root, hboot, hsame⟩
  rw [hboot, bind_some] at hback
  have hroot : (find root (components softwarePath.bytes)).isSome :=
    find_isSome_above (by decide) hback
  have heq : find root (components softwarePath.bytes) =
      find deletedHive.root (components softwarePath.bytes) :=
    hsame ⟨_, ascii "/etc/thos/registry/software.hiv"⟩ (by decide)
  rw [heq, isNone_iff_eq_none.1 hgone] at hroot
  cases hroot

end Thos.Registry
