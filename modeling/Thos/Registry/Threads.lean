import Thos.Registry.Durability

/-!
# Registry calls on several threads

A call that changes the tree takes the lock once to change it and once more to serialise the
hive (`persist`), and writes the file with no lock held. Calls of several threads are
interleaved at these points.

When all calls have returned, the file of a hive is the serialisation of its subtree, as long as
no thread writes a snapshot over a newer one and no call deletes a hive root
(`registry_files_current`). Two threads can write their snapshots in the wrong order
(`stale_snapshot_stays`).
-/

set_option autoImplicit false

namespace Thos.Registry

open Thos.Lib Option

/-! ## Steps -/

/-- The first part of a call: the new tree, and the components that `persist` is called with; `none`
for a call that changes nothing. -/
def mutate (root : Key) : Op → Option (Key × List Bytes)
  | .create path uid =>
    let comps := components path.bytes
    if comps = [] then none else some (make root comps uid id, comps)
  | .setValue path name ty data =>
    let comps := components path.bytes
    (findMut root comps (Key.insertValue (toAsciiLowercase name.bytes) ⟨ty, data⟩)).map (·, comps)
  | .delete path =>
    let comps := components path.bytes
    comps.getLast?.bind fun leaf => (removeLeaf root comps.dropLast leaf).map (·, comps)
  | .reboot => none

/-- Where a thread is: in no call, before the hive is serialised, or before its file is written. A
snapshot has a number. -/
inductive Pc
  | idle
  | mutated (comps : List Bytes)
  | snapped (h : Hive) (bytes : Bytes) (n : Nat)

/-- The registry and its threads. The last three fields note what has happened: how many
snapshots there have been, which one each file holds, and which hives had a call under them. -/
structure Shared where
  store : Store
  pcs : Nat → Pc
  clock : Nat
  written : Hive → Nat
  touched : Hive → Prop

open Shared

/-- The steps of a thread. -/
inductive Act
  | mutate (t : Nat) (op : Op)
  | snapshot (t : Nat)
  | write (t : Nat)

variable (s : Shared) {t t' : Nat} {comps : List Bytes}

/-- Thread `t` goes on. -/
def Shared.goto (t : Nat) (pc : Pc) : Shared := { s with pcs := Function.update s.pcs t pc }

/-- The tree is changed under the lock. -/
def Shared.mutated (t : Nat) (op : Op) : Shared :=
  match mutate s.store.root op with
  | none => s
  | some (root, comps) =>
    { s.goto t (.mutated comps) with
      store := { s.store with root }
      touched := fun h => s.touched h ∨ h.root <+: comps }

/-- The hive is serialised under the lock. -/
def Shared.snapshot (t : Nat) (comps : List Bytes) : Shared :=
  match hives.find? fun h => underHive comps h.root with
  | none => s.goto t .idle
  | some h =>
    match find s.store.root h.root with
    | none => s.goto t .idle
    | some k => { s.goto t (.snapped h (serializeHive k) (s.clock + 1)) with clock := s.clock + 1 }

/-- The file is written. -/
def Shared.write (t : Nat) (h : Hive) (bytes : Bytes) (n : Nat) : Shared :=
  { s.goto t .idle with
    store := { s.store with files := Function.update s.store.files h.file (some bytes) }
    written := fun h' => if h' = h then n else s.written h' }

/-- One step of a thread; `none` if it is not there. -/
def Shared.step : Act → Option Shared
  | .mutate t op =>
    match s.pcs t with
    | .idle => some (s.mutated t op)
    | _ => none
  | .snapshot t =>
    match s.pcs t with
    | .mutated comps => some (s.snapshot t comps)
    | _ => none
  | .write t =>
    match s.pcs t with
    | .snapped h bytes n => some (s.write t h bytes n)
    | _ => none

@[simp] theorem Shared.pcs_goto_self (t : Nat) (pc : Pc) : (s.goto t pc).pcs t = pc := by
  simp [goto]

theorem Shared.pcs_goto_of_ne (h : t' ≠ t) (pc : Pc) : (s.goto t pc).pcs t' = s.pcs t' := by
  simp [goto, h]

theorem Shared.pcs_mutated_of_ne (h : t' ≠ t) (op : Op) : (s.mutated t op).pcs t' = s.pcs t' := by
  unfold mutated
  split
  · rfl
  · exact s.pcs_goto_of_ne h _

theorem Shared.pcs_snapshot_of_ne (h : t' ≠ t) (comps : List Bytes) :
    (s.snapshot t comps).pcs t' = s.pcs t' := by
  unfold snapshot
  split
  · exact s.pcs_goto_of_ne h _
  · split <;> exact s.pcs_goto_of_ne h _

theorem Shared.pcs_write_of_ne (h : t' ≠ t) (hive : Hive) (bytes : Bytes) (n : Nat) :
    (s.write t hive bytes n).pcs t' = s.pcs t' :=
  s.pcs_goto_of_ne h _

/-! ## What holds of each hive -/

/-- The file is the serialisation of the subtree. -/
def Current (s : Store) (h : Hive) : Prop :=
  ∃ k, find s.root h.root = some k ∧ s.files h.file = some (serializeHive k)

/-- No thread is in a call. -/
def Shared.Idle : Prop := ∀ t, s.pcs t = .idle

/-- Threads begin: no call has been made, and no snapshot taken. -/
structure Shared.Start (s : Shared) : Prop where
  idle : s.Idle
  clock : s.clock = 0
  written : ∀ h, s.written h = 0
  touched : ∀ h, ¬ s.touched h

/-- The call deletes no hive root and no key above one. -/
def Op.SparesHives (root : Key) : Op → Prop
  | .delete path =>
    components path.bytes ≠ [] → ∀ h ∈ hives, components path.bytes <+: h.root →
      find root (components path.bytes) = none
  | _ => True

/-- The step does not write a snapshot over a newer one, and deletes no hive root. -/
def Act.InOrder : Act → Prop
  | .mutate _ op => op.SparesHives s.store.root
  | .snapshot _ => True
  | .write t => ∀ h bytes n, s.pcs t = .snapped h bytes n → s.written h ≤ n

/-! ## The first part of a call -/

theorem mutate_frame {root root' : Key} {op : Op} (hspares : op.SparesHives root)
    (hmut : mutate root op = some (root', comps)) {h : Hive} (hh : h ∈ hives) :
    (h.root <+: comps → (find root' h.root).isSome) ∧
      (¬ h.root <+: comps → (find root h.root).isSome → find root' h.root = find root h.root) := by
  cases op with
  | create path uid =>
    simp only [mutate] at hmut
    split_ifs at hmut
    cases hmut
    exact ⟨fun hp => find_make_isSome_above hp uid id,
      fun hp hsome => find_make_of_subkeys hp uid (fun _ => rfl) hsome⟩
  | setValue path name ty data =>
    simp only [mutate, findMut_eq root _ 0, map_map, map_eq_some_iff] at hmut
    obtain ⟨_, -, ⟨⟩⟩ := hmut
    exact ⟨fun hp => find_make_isSome_above hp 0 _,
      fun hp hsome => find_make_of_subkeys hp 0 (Key.subkeys_insertValue _ _) hsome⟩
  | delete path =>
    simp only [mutate, removeLeaf_eq] at hmut
    obtain ⟨leaf, hlast, hmut⟩ := bind_eq_some_iff.1 hmut
    have hcomps := components_ne_nil_of_getLast? hlast
    split_ifs at hmut with hex
    · cases hmut
      have hnot : ¬ components path.bytes <+: h.root := by
        intro hp
        have hnone := hspares (by rw [hcomps]; simp) h hh hp
        rw [← hcomps, hnone] at hex
        cases hex
      rw [hcomps] at hnot ⊢
      simp only [List.dropLast_concat]
      refine ⟨fun hp => ?_, fun hp hsome => find_make_removeSubkey hp hnot 0 hsome⟩
      -- the root is not the deleted key, so it is the parent or above it
      rcases List.prefix_concat_iff.1 hp with heq | hp
      · exact absurd (heq ▸ List.prefix_rfl) hnot
      · exact find_make_isSome_above hp 0 _
    · cases hmut
  | reboot => cases hmut

/-! ## Invariant -/

/-- Snapshot `n` is the newest of hive `h`, and `content` is what it says: it is in the file, or
some thread has it. -/
structure Newest (s : Shared) (h : Hive) (n : Nat) (content : Option Bytes) : Prop where
  clock : n ≤ s.clock
  le : s.written h ≤ n
  snapped : ∀ t b m, s.pcs t = .snapped h b m → m ≤ n ∧ (m = n → content = some b)
  file : s.written h = n → s.store.files h.file = content
  held : s.written h = n ∨ ∃ t b, s.pcs t = .snapped h b n

/-- Some thread has changed something under the hive and has yet to serialise it. -/
def Pending (h : Hive) : Prop := ∃ t comps, s.pcs t = .mutated comps ∧ h.root <+: comps

/-- The hive is there, and the newest snapshot is up to date, or there will be a newer one. -/
def Followed (h : Hive) (content : Option Bytes) : Prop :=
  (find s.store.root h.root).isSome ∧
    (content = (find s.store.root h.root).map serializeHive ∨ Pending s h)

/-- What holds of a hive between steps. The newest snapshot is followed up from the first call under
the hive on, or from the beginning if `c` says that the file was current then. -/
def HiveInv (c : Prop) (s : Shared) (h : Hive) : Prop :=
  (∃ n content, Newest s h n content ∧ (c ∨ s.touched h → Followed s h content)) ∧
    (Pending s h → s.touched h)

theorem Shared.Start.hiveInv {s : Shared} (hs : s.Start) (h : Hive) :
    HiveInv (Current s.store h) s h := by
  have hnot : ∀ t {pc : Pc}, s.pcs t = pc → pc = .idle := fun t pc hpc => hpc ▸ hs.idle t
  refine ⟨⟨0, s.store.files h.file,
    ⟨Nat.zero_le _, (hs.written h).le, ?_, fun _ => rfl, .inl (hs.written h)⟩, ?_⟩, ?_⟩
  · intro t b m hpc
    cases hnot t hpc
  · rintro (⟨k, hk, hfile⟩ | htouch)
    · rw [Followed, hk, hfile]
      exact ⟨rfl, .inl rfl⟩
    · exact absurd htouch (hs.touched h)
  · rintro ⟨t, comps, hpc, -⟩
    cases hnot t hpc

section Steps

variable {s : Shared} {h : Hive} {c : Prop}

theorem pcs_of_goto {pc pc' : Pc} (hpc : (s.goto t pc).pcs t' = pc') (hne : pc ≠ pc') :
    s.pcs t' = pc' := by
  by_cases ht : t' = t
  · rw [ht, pcs_goto_self] at hpc
    exact absurd hpc hne
  · rwa [pcs_goto_of_ne s ht] at hpc

theorem pcs_goto_of_pcs {pc pc' : Pc} (hpc : s.pcs t' = pc') (hne : s.pcs t ≠ pc') :
    (s.goto t pc).pcs t' = pc' := by
  rw [pcs_goto_of_ne s _ pc, hpc]
  rintro rfl
  exact hne hpc

variable (hinv : HiveInv c s h)
include hinv

theorem HiveInv.mutated (hh : h ∈ hives) (hidle : s.pcs t = .idle) {op : Op}
    (hspares : op.SparesHives s.store.root) : HiveInv c (s.mutated t op) h := by
  cases hmut : mutate s.store.root op with
  | none =>
    rw [Shared.mutated, hmut]
    exact hinv
  | some r =>
    obtain ⟨root, comps⟩ := r
    obtain ⟨hunder, hframe⟩ := mutate_frame hspares hmut hh
    obtain ⟨⟨n, content, hnew, hfollow⟩, hpend⟩ := hinv
    simp only [Shared.mutated, hmut]
    refine ⟨⟨n, content, ⟨hnew.clock, hnew.le, ?_, hnew.file, ?_⟩, ?_⟩, ?_⟩
    · intro t' b m hpc
      exact hnew.snapped t' b m (pcs_of_goto hpc (by simp))
    · refine hnew.held.imp_right ?_
      rintro ⟨t', b, hpc⟩
      exact ⟨t', b, pcs_goto_of_pcs hpc (by simp [hidle])⟩
    · intro hor
      by_cases hp : h.root <+: comps
      · exact ⟨hunder hp, .inr ⟨t, comps, Shared.pcs_goto_self s t _, hp⟩⟩
      · obtain ⟨hsome, hcur⟩ := hfollow (hor.imp_right fun htouch => htouch.resolve_right hp)
        simp only [Followed, hframe hp hsome]
        refine ⟨hsome, hcur.imp_right ?_⟩
        rintro ⟨t', comps', hpc, hp'⟩
        exact ⟨t', comps', pcs_goto_of_pcs hpc (by simp [hidle]), hp'⟩
    · rintro ⟨t', comps', hpc, hp'⟩
      by_cases heq : comps = comps'
      · exact .inr (heq ▸ hp')
      · exact .inl (hpend ⟨t', comps', pcs_of_goto hpc (by simpa using heq), hp'⟩)

theorem HiveInv.goto (hpc : s.pcs t = .mutated comps) (hp : ¬ h.root <+: comps) {pc : Pc}
    (hidle : ∀ comps', pc ≠ .mutated comps') (hsnap : ∀ b m, pc ≠ .snapped h b m) {clock : Nat}
    (hclock : s.clock ≤ clock) : HiveInv c { s.goto t pc with clock } h := by
  obtain ⟨⟨n, content, hnew, hfollow⟩, hpend⟩ := hinv
  refine ⟨⟨n, content, ⟨hnew.clock.trans hclock, hnew.le, ?_, hnew.file, ?_⟩, ?_⟩, ?_⟩
  · exact fun t' b m hpc' => hnew.snapped t' b m (pcs_of_goto hpc' (hsnap b m))
  · refine hnew.held.imp_right ?_
    rintro ⟨t', b, hpc'⟩
    exact ⟨t', b, pcs_goto_of_pcs hpc' (by simp [hpc])⟩
  · intro hor
    obtain ⟨hsome, hcur⟩ := hfollow hor
    refine ⟨hsome, hcur.imp_right ?_⟩
    rintro ⟨t', comps', hpc', hp'⟩
    refine ⟨t', comps', pcs_goto_of_pcs hpc' ?_, hp'⟩
    rintro heq
    rw [hpc, Pc.mutated.injEq] at heq
    exact hp (heq ▸ hp')
  · rintro ⟨t', comps', hpc', hp'⟩
    exact hpend ⟨t', comps', pcs_of_goto hpc' (hidle comps'), hp'⟩

theorem HiveInv.snapshot (hh : h ∈ hives)
    (hpc : s.pcs t = .mutated comps) : HiveInv c (s.snapshot t comps) h := by
  by_cases hp : h.root <+: comps
  · obtain ⟨⟨n, content, hnew, hfollow⟩, hpend⟩ := hinv
    obtain ⟨hsome, -⟩ := hfollow (.inr (hpend ⟨t, comps, hpc, hp⟩))
    obtain ⟨k, hk⟩ := isSome_iff_exists.1 hsome
    simp only [Shared.snapshot, find?_underHive hh hp, hk]
    -- this snapshot is the newest now
    have hlt : s.written h < s.clock + 1 := Nat.lt_succ_of_le (hnew.le.trans hnew.clock)
    refine ⟨⟨s.clock + 1, some (serializeHive k),
      ⟨le_rfl, hlt.le, ?_, fun heq => absurd heq hlt.ne, ?_⟩, ?_⟩, ?_⟩
    · intro t' b m hpc'
      by_cases heq : Pc.snapped h (serializeHive k) (s.clock + 1) = .snapped h b m
      · obtain ⟨-, rfl, rfl⟩ := Pc.snapped.inj heq
        exact ⟨le_rfl, fun _ => rfl⟩
      · have hle := (hnew.snapped t' b m (pcs_of_goto hpc' heq)).1.trans hnew.clock
        exact ⟨hle.trans (Nat.le_succ _), fun hm => absurd (hm ▸ hle) (Nat.not_succ_le_self _)⟩
    · exact .inr ⟨t, _, Shared.pcs_goto_self s t _⟩
    · intro _
      refine ⟨hsome, .inl ?_⟩
      show some (serializeHive k) = (find s.store.root h.root).map serializeHive
      rw [hk]
      rfl
    · rintro ⟨t', comps', hpc', hp'⟩
      exact hpend ⟨t', comps', pcs_of_goto hpc' (by simp), hp'⟩
  · unfold Shared.snapshot
    split
    · exact hinv.goto hpc hp (by simp) (by simp) le_rfl
    · rename_i h' hfind
      have hne : h' ≠ h := by
        rintro rfl
        exact hp ((underHive_iff comps h'.root).1 (by simpa using List.find?_some hfind))
      split
      · exact hinv.goto hpc hp (by simp) (by simp) le_rfl
      · exact hinv.goto hpc hp (by simp) (by simp [hne]) (Nat.le_succ _)

/-- The file of a hive is written by the threads that hold its snapshots, the newest last. -/
theorem HiveInv.write (hh : h ∈ hives) {h' : Hive} (hh' : h' ∈ hives) {bytes : Bytes} {m : Nat}
    (hpc : s.pcs t = .snapped h' bytes m) (hle : s.written h' ≤ m) :
    HiveInv c (s.write t h' bytes m) h := by
  obtain ⟨⟨n, content, hnew, hfollow⟩, hpend⟩ := hinv
  have hfollow' : c ∨ s.touched h → Followed (s.write t h' bytes m) h content := by
    intro hor
    obtain ⟨hsome, hcur⟩ := hfollow hor
    refine ⟨hsome, hcur.imp_right ?_⟩
    rintro ⟨t', comps', hpc', hp'⟩
    exact ⟨t', comps', pcs_goto_of_pcs hpc' (by simp [hpc]), hp'⟩
  have hpend' : Pending (s.write t h' bytes m) h → s.touched h := by
    rintro ⟨t', comps', hpc', hp'⟩
    exact hpend ⟨t', comps', pcs_of_goto hpc' (by simp), hp'⟩
  have hsnapped : ∀ t' b m', (s.write t h' bytes m).pcs t' = .snapped h b m' →
      m' ≤ n ∧ (m' = n → content = some b) :=
    fun t' b m' hpc' => hnew.snapped t' b m' (pcs_of_goto hpc' (by simp))
  by_cases hsame : h = h'
  · subst hsame
    obtain ⟨hmn, hcontent⟩ := hnew.snapped t bytes m hpc
    refine ⟨⟨n, content, ⟨hnew.clock, ?_, hsnapped, ?_, ?_⟩, hfollow'⟩, hpend'⟩
    · simpa [Shared.write] using hmn
    · intro heq
      have hm : m = n := by simpa [Shared.write] using heq
      simp [Shared.write, hcontent hm]
    · by_cases hm : m = n
      · exact .inl (by simpa [Shared.write] using hm)
      · -- an older one than the newest, which is then not in the file yet
        obtain ⟨t', b, hpc'⟩ := hnew.held.resolve_left (by omega)
        refine .inr ⟨t', b, pcs_goto_of_pcs hpc' ?_⟩
        rw [hpc]
        rintro heq
        exact hm (Pc.snapped.inj heq).2.2
  · have hfile : h.file ≠ h'.file := fun heq => hsame (hive_file_inj hh hh' heq)
    refine ⟨⟨n, content, ⟨hnew.clock, ?_, hsnapped, ?_, ?_⟩, hfollow'⟩, hpend'⟩
    · simpa [Shared.write, hsame] using hnew.le
    · intro heq
      simp only [Shared.write, if_neg hsame] at heq
      simpa [Shared.write, hfile] using hnew.file heq
    · refine hnew.held.imp (fun hw => by simpa [Shared.write, hsame] using hw) ?_
      rintro ⟨t', b, hpc'⟩
      refine ⟨t', b, pcs_goto_of_pcs hpc' ?_⟩
      rw [hpc]
      rintro heq
      exact hsame (Pc.snapped.inj heq).1.symm

end Steps

/-! ## Runs -/

/-- What holds of all hives between steps. -/
structure SharedInv (s₀ s : Shared) : Prop where
  hive : ∀ h ∈ hives, HiveInv (Current s₀.store h) s h
  known : ∀ t h b n, s.pcs t = .snapped h b n → h ∈ hives

theorem SharedInv.step {s₀ s s' : Shared} (hs : SharedInv s₀ s) {a : Act} (hok : a.InOrder s)
    (hstep : s.step a = some s') : SharedInv s₀ s' := by
  cases a with
  | mutate t op =>
    simp only [Shared.step] at hstep
    split at hstep
    · rename_i hidle
      cases hstep
      refine ⟨fun h hh => (hs.hive h hh).mutated hh hidle hok,
        fun t' h b n hpc => hs.known t' h b n ?_⟩
      unfold Shared.mutated at hpc
      split at hpc
      · exact hpc
      · exact pcs_of_goto hpc (by simp)
    · cases hstep
  | snapshot t =>
    simp only [Shared.step] at hstep
    split at hstep
    · rename_i comps hpc
      cases hstep
      refine ⟨fun h hh => (hs.hive h hh).snapshot hh hpc, fun t' h b n hpc' => ?_⟩
      unfold Shared.snapshot at hpc'
      split at hpc'
      · exact hs.known t' h b n (pcs_of_goto hpc' (by simp))
      · rename_i h' hfind
        split at hpc'
        · exact hs.known t' h b n (pcs_of_goto hpc' (by simp))
        · rename_i k _
          by_cases heq : Pc.snapped h' (serializeHive k) (s.clock + 1) = .snapped h b n
          · exact (Pc.snapped.inj heq).1 ▸ List.mem_of_find?_eq_some hfind
          · exact hs.known t' h b n (pcs_of_goto hpc' heq)
    · cases hstep
  | write t =>
    simp only [Shared.step] at hstep
    split at hstep
    · rename_i h' bytes m hpc
      cases hstep
      have hh' := hs.known t h' bytes m hpc
      exact ⟨fun h hh => (hs.hive h hh).write hh hh' hpc (hok h' bytes m hpc),
        fun t' h b n hpc' => hs.known t' h b n (pcs_of_goto hpc' (by simp))⟩
    · cases hstep

/-- Calls of any number of threads, interleaved in any way in which no snapshot is written over a
newer one and no hive root is deleted: when all have returned, each file that was current before
them, and each whose hive had a call under it, is the serialisation of the hive. -/
theorem registry_files_current {s₀ s : Shared} (hstart : s₀.Start)
    (hrun : Run step (fun s a => a.InOrder s) s₀ s) (hidle : s.Idle) {h : Hive} (hh : h ∈ hives)
    (hold : Current s₀.store h ∨ s.touched h) : Current s.store h := by
  have hinv₀ : SharedInv s₀ s₀ := by
    refine ⟨fun h _ => hstart.hiveInv h, fun t h b n hpc => ?_⟩
    rw [hstart.idle t] at hpc
    cases hpc
  have hinv := hrun.invariant (fun s a s' hs hok hstep => SharedInv.step hs hok hstep) hinv₀
  obtain ⟨⟨n, content, hnew, hfollow⟩, -⟩ := hinv.hive h hh
  obtain ⟨hsome, hcur⟩ := hfollow hold
  obtain ⟨k, hk⟩ := isSome_iff_exists.1 hsome
  have hwritten : s.written h = n := by
    refine hnew.held.resolve_right ?_
    rintro ⟨t, b, hpc⟩
    rw [hidle t] at hpc
    cases hpc
  have hcontent : content = (find s.store.root h.root).map serializeHive := by
    refine hcur.resolve_right ?_
    rintro ⟨t, comps, hpc, -⟩
    rw [hidle t] at hpc
    cases hpc
  refine ⟨k, hk, ?_⟩
  rw [hnew.file hwritten, hcontent, hk]
  rfl

/-- The thread that takes the step. -/
def Act.thread : Act → Nat
  | .mutate t _ | .snapshot t | .write t => t

theorem pcs_step_of_ne {a : Act} {s s' : Shared} (hstep : s.step a = some s') {t : Nat}
    (ht : t ≠ a.thread) : s'.pcs t = s.pcs t := by
  cases a with
  | mutate t' op =>
    simp only [Shared.step] at hstep
    split at hstep <;> cases hstep
    exact s.pcs_mutated_of_ne ht op
  | snapshot t' =>
    simp only [Shared.step] at hstep
    split at hstep <;> cases hstep
    exact s.pcs_snapshot_of_ne ht _
  | write t' =>
    simp only [Shared.step] at hstep
    split at hstep <;> cases hstep
    exact s.pcs_write_of_ne ht _ _ _

theorem idle_of_runAll {as : List Act} {s₀ s : Shared} (hrun : runAll step s₀ as = some s)
    (hstart : s₀.Idle) (has : ∀ a ∈ as, a.thread ∈ [0, 1]) (h0 : s.pcs 0 = .idle)
    (h1 : s.pcs 1 = .idle) : s.Idle := by
  intro t
  by_cases ht : t ∈ [0, 1]
  · simp only [List.mem_cons, List.not_mem_nil, or_false] at ht
    rcases ht with rfl | rfl
    · exact h0
    · exact h1
  · have hkeep : (∀ a ∈ as, a.thread ∈ [0, 1]) → s.pcs t = .idle := by
      refine runAll_invariant (P := fun as s => (∀ a ∈ as, a.thread ∈ [0, 1]) → s.pcs t = .idle)
        (fun as s a s' hs hstep has => ?_) hrun fun _ => hstart t
      rw [pcs_step_of_ne hstep]
      · exact hs fun a' ha' => has a' (List.mem_append_left _ ha')
      · rintro rfl
        exact ht (has a (by simp))
    exact hkeep has

/-- First boot, with no call made yet. -/
def sharedBoot : Shared := ⟨firstStore, fun _ => .idle, 0, fun _ => 0, fun _ => False⟩

theorem start_sharedBoot : sharedBoot.Start := ⟨fun _ => rfl, rfl, fun _ => rfl, fun _ h => h⟩

/-- `machine\software`, and its file. -/
def softwareHive : Hive := ⟨[ascii "machine", ascii "software"],
      ascii "/etc/thos/registry/software.hiv"⟩

def toolPath : Str := ⟨ascii "machine\\software\\tool", by decide⟩

/-- Thread 0 makes `app`, thread 1 makes `tool`, and each writes the snapshot that it took. -/
def twoCalls (first second : Nat) : List Act :=
  [.mutate 0 (.create appPath 0), .snapshot 0, .mutate 1 (.create toolPath 0), .snapshot 1,
    .write first, .write second]

/-- In the order of the snapshots. -/
theorem registry_files_current_twoCalls : ∃ s, runAll step sharedBoot (twoCalls 0 1) = some s ∧
      (find s.store.root (components toolPath.bytes)).isSome ∧ Current s.store softwareHive := by
  refine ⟨_, rfl, rfl, registry_files_current start_sharedBoot ?_ ?_ (by decide)
    (.inr (.inl (.inr (by decide))))⟩
  · refine ((((((Run.single (.mutate 0 (.create appPath 0)) trivial rfl).tail (.snapshot 0)
      trivial rfl).tail (.mutate 1 (.create toolPath 0)) trivial rfl).tail (.snapshot 1)
      trivial rfl)).tail (.write 0) ?_ rfl).tail (.write 1) ?_ rfl
    · exact fun h bytes n _ => Nat.zero_le n
    · rintro h bytes n ⟨⟩
      decide
  · exact @idle_of_runAll (twoCalls 0 1) _ _ rfl start_sharedBoot.idle (by decide) rfl rfl

/-- The hive when thread 0 has made `app`. -/
def appKey : Key := .mk [(ascii "app", .new)] [] 0

/-- In the other order all calls have returned, `tool` is in the tree, and the file does not have
it. -/
theorem stale_snapshot_stays :
    ∃ s, runAll step sharedBoot (twoCalls 1 0) = some s ∧ s.Idle ∧ s.touched softwareHive ∧
      (find s.store.root (components toolPath.bytes)).isSome ∧
      s.store.files softwareHive.file = some (serializeHive appKey) ∧
        ¬ Current s.store softwareHive := by
  refine ⟨_, rfl, ?_, .inl (.inr (by decide)), ?_, ?_, ?_⟩
  · exact @idle_of_runAll (twoCalls 1 0) _ _ rfl start_sharedBoot.idle (by decide) rfl rfl
  · rfl
  · rfl
  · rintro ⟨k, hk, hfile⟩
    obtain rfl : k = .mk [(ascii "app", .new), (ascii "tool", .new)] [] 0 :=
      some.inj (hk.symm.trans rfl)
    have hne : serializeHive appKey ≠ serializeHive
      (.mk [(ascii "app", .new), (ascii "tool", .new)] [] 0) := by
      decide +kernel
    exact hne (some.inj hfile)

end Thos.Registry
