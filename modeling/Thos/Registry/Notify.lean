import Thos.Registry.Store

/-!
# Change notification

`NtNotifyChangeKey` arms a watch on a key (`watch`). A call that changes the tree reports one
path (`fire`), and every watch that this path covers is signalled and dropped.

What a call changes is a set of keys: `create_owned` creates the missing ancestors of its path
too, and `delete_key` reports the parent of the key that it removes. So the reported path does
not always stand for the change. `Misreported` lists the three ways in which it does not, and a
watch fires exactly at the first change that it covers if and only if no call made while it is
armed is one of them (`watch_fires_iff`).
-/

set_option autoImplicit false

namespace Thos.Registry

open Thos.Lib List

/-! ## Watches -/

/-- `WatchEntry`. Two registrations of a run differ in `serial`; the source tells them apart by
their place in the list. -/
structure WatchEntry where
  path : List Bytes
  watchTree : Bool
  (event serial : Nat)
  deriving DecidableEq

/-- `watch_matches`: a change at the watched key or one below it, or anywhere below it with
`watchTree`. -/
def watchMatches (watchPath : List Bytes) (watchTree : Bool) (changed : List Bytes) : Bool :=
  if changed.length < watchPath.length ∨ changed.take watchPath.length ≠ watchPath then false
  else
    let depth := changed.length - watchPath.length
    depth == 0 || depth == 1 || watchTree

/-- The loop of `fire`: the watches that stay and, in order, those that are signalled. -/
def fire (changed : List Bytes) : List WatchEntry → List WatchEntry × List WatchEntry
  | [] => ([], [])
  | w :: list =>
    let rest := fire changed list
    if watchMatches w.path w.watchTree changed then (rest.1, w :: rest.2)
    else (w :: rest.1, rest.2)

/-- The registry with `SEEDED` and `WATCHES`; `armed` counts the registrations so far. -/
structure Notifier where
  store : Store
  seeded : Bool
  watches : List WatchEntry
  armed : Nat

/-- What a call answers, the state it leaves and the watches it signals. -/
structure Reply where
  ok : Bool
  after : Notifier
  fired : List WatchEntry

/-- The calls of a run. -/
inductive Call where
  | createOwned (path : Str) (uid : UInt32)
  | setValue (path name : Str) (ty : UInt32) (data : Bytes)
  | deleteKey (path : Str)
  | watch (path : Str) (watchTree : Bool) (event : Nat)

namespace Notifier

/-- No watch is armed yet. -/
def new (store : Store) (seeded : Bool) : Notifier := ⟨store, seeded, [], 0⟩

variable (n : Notifier)

/-- `run` puts the standard roots in place on first use. -/
def run : Notifier :=
  if n.seeded then n
  else { n with store := { n.store with root := seed n.store.root }, seeded := true }

/-- Answer `true` after reporting a change at `changed`. -/
def report (store : Store) (changed : List Bytes) : Reply :=
  ⟨true, { n with store, watches := (fire changed n.watches).1 }, (fire changed n.watches).2⟩

variable (path : Str)

/-- `create_owned`: only a key that did not exist is a change. -/
def createOwned (uid : UInt32) : Reply :=
  let comps := components path.bytes
  if comps = [] then ⟨false, n, []⟩
  else
    let existed := (find n.run.store.root comps).isSome
    let store := (Registry.createOwned n.run.store path uid).2
    if existed then ⟨true, { n.run with store }, []⟩ else n.run.report store comps

def setValue (path name : Str) (ty : UInt32) (data : Bytes) : Reply :=
  let r := Registry.setValue n.run.store path name ty data
  if r.1 then n.run.report r.2 (components path.bytes) else ⟨false, n.run, []⟩

/-- `delete_key`: the change is reported on the parent. -/
def deleteKey : Reply :=
  let comps := components path.bytes
  if comps = [] then ⟨false, n, []⟩
  else
    let r := Registry.deleteKey n.run.store path
    if r.1 then n.run.report r.2 comps.dropLast else ⟨false, n.run, []⟩

/-- The entry that the next registration adds. -/
def entry (watchTree : Bool) (event : Nat) : WatchEntry :=
  ⟨components path.bytes, watchTree, event, n.armed⟩

/-- `watch`: only a key that exists can be watched. -/
def watch (watchTree : Bool) (event : Nat) : Reply :=
  if (find n.run.store.root (components path.bytes)).isSome then
    ⟨true, { n.run with
      watches := n.run.watches ++ [n.entry path watchTree event], armed := n.armed + 1 }, []⟩
  else ⟨false, n.run, []⟩

def call : Call → Reply
  | .createOwned path uid => n.createOwned path uid
  | .setValue path name ty data => n.setValue path name ty data
  | .deleteKey path => n.deleteKey path
  | .watch path watchTree event => n.watch path watchTree event

/-- The state after a sequence of calls. -/
def after (cs : List Call) : Notifier := cs.foldl (fun n c => (n.call c).after) n

end Notifier

open Notifier

/-! ## What a call changes -/

def Created (before after : Key) (q : List Bytes) : Prop :=
  find before q = none ∧ (find after q).isSome

def Removed (before after : Key) (q : List Bytes) : Prop :=
  (find before q).isSome ∧ find after q = none

def SetsValue (before : Key) (c : Call) (q : List Bytes) : Prop :=
  ∃ path name ty data, c = .setValue path name ty data ∧ components path.bytes = q ∧
    (find before q).isSome

/-- `q` is a direct subkey of `k` or, for a whole tree, any key below it. -/
def Under (tree : Bool) (k q : List Bytes) : Prop :=
  ∃ leaf rest, q = k ++ leaf :: rest ∧ (rest = [] ∨ tree = true)

def Covers (w : WatchEntry) (before after : Key) (c : Call) : Prop :=
  (∃ q, (Created before after q ∨ Removed before after q) ∧ Under w.watchTree w.path q) ∨
    ∃ q, SetsValue before c q ∧ (q = w.path ∨ Under w.watchTree w.path q)

/-- The call deletes the watched key or an ancestor of it. -/
def Unseats (w : WatchEntry) (before : Key) (c : Call) : Prop :=
  ∃ path, c = .deleteKey path ∧ components path.bytes ≠ [] ∧
    (find before (components path.bytes)).isSome ∧ components path.bytes <+: w.path

/-- The call is one that the watch waits for. -/
def Due (w : WatchEntry) (n : Notifier) (c : Call) : Prop :=
  ¬ Unseats w n.store.root c ∧ Covers w n.store.root (n.call c).after.store.root c

/-- Along the calls `cs`, the watch fires exactly at the first one that it waits for, and at most
once. -/
def FiresAtFirst (n : Notifier) (w : WatchEntry) (cs : List Call) : Prop :=
  ∀ i c, cs[i]? = some c → ((n.after (cs.take i)).call c).fired.count w ≤ 1 ∧
    (w ∈ ((n.after (cs.take i)).call c).fired ↔ Due w (n.after (cs.take i)) c ∧
        ∀ j c', j < i → cs[j]? = some c' → ¬ Due w (n.after (cs.take j)) c')

/-- The changes that the reported path does not stand for: the watched key itself is created
again; a direct subkey of the key is created as a missing ancestor; a key two levels below is
removed. The last two go wrong only for a watch without `watchTree`. -/
inductive Misreported (w : WatchEntry) (before : Key) : Call → Prop
  | recreated (path : Str) (uid : UInt32) : components path.bytes = w.path →
      find before w.path = none → Misreported w before (.createOwned path uid)
  | ancestor (path : Str) (uid : UInt32) (leaf : Bytes) (rest : List Bytes) :
      w.watchTree = false → components path.bytes = w.path ++ leaf :: rest → rest ≠ [] →
      find before (w.path ++ [leaf]) = none → Misreported w before (.createOwned path uid)
  | grandchild (path : Str) (leaf leaf' : Bytes) :
      w.watchTree = false → components path.bytes = w.path ++ [leaf, leaf'] →
      (find before (components path.bytes)).isSome → Misreported w before (.deleteKey path)

/-! ## Matching -/

theorem under_append {tree : Bool} {k rest : List Bytes} {leaf : Bytes} :
    Under tree k (k ++ leaf :: rest) ↔ rest = [] ∨ tree = true := by
  constructor
  · rintro ⟨leaf', rest', heq, h⟩
    obtain ⟨-, rfl⟩ := cons.inj (append_cancel_left heq)
    exact h
  · exact fun h => ⟨leaf, rest, rfl, h⟩

theorem not_under_of_prefix {tree : Bool} {k q : List Bytes} (h : q <+: k) : ¬ Under tree k q := by
  rintro ⟨leaf, rest, rfl, -⟩
  have hlen := h.length_le
  simp at hlen

theorem watchMatches_iff (k : List Bytes) (tree : Bool) (changed : List Bytes) :
    watchMatches k tree changed = true ↔ changed = k ∨ Under tree k changed := by
  unfold watchMatches
  split
  · rename_i h
    simp only [Bool.false_eq_true, false_iff]
    rintro (rfl | ⟨leaf, rest, rfl, -⟩)
    · simp at h
    · simp at h
  · rename_i h
    push Not at h
    obtain ⟨rest, rfl⟩ : k <+: changed := by
      rw [← h.2]
      exact take_prefix ..
    cases rest with
    | nil => simp
    | cons leaf rest =>
      rw [under_append]
      simp [length_eq_zero_iff]

theorem fire_fst (changed : List Bytes) (ws : List WatchEntry) :
    (fire changed ws).1 = ws.filter fun w => !watchMatches w.path w.watchTree changed := by
  induction ws with
  | nil => rfl
  | cons v ws ih =>
    rw [fire]
    split <;> simp [*]

theorem fire_snd (changed : List Bytes) (ws : List WatchEntry) :
    (fire changed ws).2 = ws.filter fun w => watchMatches w.path w.watchTree changed := by
  induction ws with
  | nil => rfl
  | cons v ws ih =>
    rw [fire]
    split <;> simp [*]

/-! ## The keys after a change -/

section Keys

variable {root : Key} {p q : List Bytes}

theorem find_create_isSome_iff (uid : UInt32) :
    (find (make root p uid id) q).isSome ↔ (find root q).isSome ∨ q <+: p := by
  constructor
  · exact find_make_isSome fun _ _ h => h
  · intro h
    by_cases hqp : q <+: p
    · exact find_isSome_above hqp (by simp [find_make_self])
    · have hq := h.resolve_right hqp
      rwa [find_make_of_subkeys (f := id) hqp uid (fun _ => rfl) hq]

theorem find_set_isSome_iff (name : Bytes) (v : Value) (hp : (find root p).isSome) :
    (find (make root p 0 (Key.insertValue name v)) q).isSome ↔ (find root q).isSome := by
  have hsub : ∀ k : Key, (k.insertValue name v).subkeys = k.subkeys := fun k => by cases k; rfl
  constructor
  · intro h
    rcases find_make_isSome (find_isSome_of_subkeys hsub) h with h | h
    · exact h
    · exact find_isSome_above h hp
  · intro h
    by_cases hqp : q <+: p
    · exact find_isSome_above hqp (by simp [find_make_self])
    · rwa [find_make_of_subkeys hqp 0 hsub h]

theorem find_delete_isSome_iff (leaf : Bytes) (hp : (find root (p ++ [leaf])).isSome) :
    (find (make root p 0 (Key.removeSubkey leaf)) q).isSome ↔
      (find root q).isSome ∧ ¬ p ++ [leaf] <+: q := by
  have hpar := find_isSome_above (prefix_append p [leaf]) hp
  constructor
  · intro h
    refine ⟨?_, fun hpre => ?_⟩
    · rcases find_make_isSome (find_isSome_of_removeSubkey leaf) h with h | h
      · exact h
      · exact find_isSome_above h hpar
    · have hgone := find_isSome_above hpre h
      rw [find_append, find_make_self] at hgone
      simp [find, OrdMap.get?_erase_self] at hgone
  · rintro ⟨h, hpre⟩
    by_cases hqp : q <+: p ++ [leaf]
    · -- above the removed key, on the way that the update walks
      have hq : q <+: p := by
        rcases prefix_concat_iff.1 hqp with rfl | hq
        · exact absurd (prefix_refl _) hpre
        · exact hq
      exact find_isSome_above hq (by simp [find_make_self])
    · rwa [find_make_removeSubkey hqp hpre 0 h]

end Keys

/-! ## One call

Once a watch is armed the standard roots are in place, so a call works on the tree it finds. Per
call, when it signals an armed watch and when the watch waits for it. -/

section Calls

variable {n : Notifier} {w : WatchEntry}

theorem mem_fired_report {store : Store} {changed : List Bytes} (hw : w ∈ n.watches) :
    w ∈ (n.report store changed).fired ↔ changed = w.path ∨ Under w.watchTree w.path changed := by
  rw [report, fire_snd, mem_filter, watchMatches_iff]
  exact and_iff_right hw

theorem deleteKey_ok (s : Store) (path : Str) : (Registry.deleteKey s path).1 = true ↔
      components path.bytes ≠ [] ∧ (find s.root (components path.bytes)).isSome := by
  unfold Registry.deleteKey
  dsimp only
  cases hlast : (components path.bytes).getLast? with
  | none => simp [getLast?_eq_none_iff.1 hlast]
  | some leaf =>
    have hcomps := components_ne_nil_of_getLast? hlast
    have hne : components path.bytes ≠ [] := by
      intro h
      simp [h] at hlast
    rw [and_iff_right hne]
    dsimp only
    rw [removeLeaf_eq, ← hcomps]
    by_cases h : (find s.root (components path.bytes)).isSome <;> simp [h]

theorem mem_fired_watch (path : Str) (tree : Bool) (event : Nat) :
    w ∉ (n.watch path tree event).fired := by
  unfold watch
  split <;> exact not_mem_nil

theorem not_due_of_same {c : Call} (hsame : (n.call c).after.store.root = n.store.root)
    (hset : ∀ q, ¬ SetsValue n.store.root c q) : ¬ Due w n c := by
  rintro ⟨-, ⟨q, h | h, _⟩ | ⟨q, h, _⟩⟩
  · rw [hsame] at h
    exact absurd h.2 (by simp [h.1])
  · rw [hsame] at h
    exact absurd h.1 (by simp [h.2])
  · exact hset q h

variable (hn : n.seeded = true)
include hn

theorem Notifier.run_of_seeded : n.run = n := by
  rw [run, if_pos hn]

theorem due_createOwned_iff (path : Str) (uid : UInt32) :
    Due w n (.createOwned path uid) ↔ ∃ q, find n.store.root q = none ∧
      q <+: components path.bytes ∧ Under w.watchTree w.path q := by
  have hseats : ¬ Unseats w n.store.root (.createOwned path uid) := by rintro ⟨_, ⟨⟩, _⟩
  have hroot : ∀ q, (find (n.call (.createOwned path uid)).after.store.root q).isSome ↔
      (find n.store.root q).isSome ∨ q <+: components path.bytes := by
    intro q
    rw [← find_create_isSome_iff uid]
    simp only [Notifier.call, Notifier.createOwned, Notifier.run_of_seeded hn]
    split
    · rename_i hnil
      rw [hnil]
      rfl
    · rename_i hne
      split <;>
        simp [Notifier.report, createOwned_eq, hne, Change.apply, createChange, persist_root]
  rw [Due, and_iff_right hseats]
  constructor
  · rintro (⟨q, h | h, hunder⟩ | ⟨q, ⟨_, _, _, _, ⟨⟩, _⟩, _⟩)
    · rcases (hroot q).1 h.2 with hq | hq
      · simp [h.1] at hq
      · exact ⟨q, h.1, hq, hunder⟩
    · have hkept := (hroot q).2 (.inl h.1)
      simp [h.2] at hkept
  · rintro ⟨q, hnone, hq, hunder⟩
    exact .inl ⟨q, .inl ⟨hnone, (hroot q).2 (.inr hq)⟩, hunder⟩

theorem due_setValue_iff (path name : Str) (ty : UInt32) (data : Bytes) :
    Due w n (.setValue path name ty data) ↔ (find n.store.root (components path.bytes)).isSome ∧
      (components path.bytes = w.path ∨ Under w.watchTree w.path (components path.bytes)) := by
  have hseats : ¬ Unseats w n.store.root (.setValue path name ty data) := by rintro ⟨_, ⟨⟩, _⟩
  have hroot : ∀ q, (find (n.call (.setValue path name ty data)).after.store.root q).isSome ↔
      (find n.store.root q).isSome := by
    intro q
    simp only [Notifier.call, Notifier.setValue, Notifier.run_of_seeded hn]
    split
    · simp only [Notifier.report, setValue_eq]
      split
      · rename_i hsome
        simp only [Change.apply, setChange, persist_root]
        exact find_set_isSome_iff _ _ hsome
      · rfl
    · rfl
  rw [Due, and_iff_right hseats]
  constructor
  · rintro (⟨q, h | h, _⟩ | ⟨q, ⟨_, _, _, _, heq, rfl, hsome⟩, hq⟩)
    · have hq := (hroot q).1 h.2
      simp [h.1] at hq
    · have hq := (hroot q).2 h.1
      simp [h.2] at hq
    · obtain ⟨rfl, -⟩ := Call.setValue.inj heq
      exact ⟨hsome, hq⟩
  · rintro ⟨hsome, hq⟩
    exact .inr ⟨_, ⟨path, name, ty, data, rfl, rfl, hsome⟩, hq⟩

theorem due_deleteKey_iff (path : Str) : Due w n (.deleteKey path) ↔ components path.bytes ≠ [] ∧
      (find n.store.root (components path.bytes)).isSome ∧
      Under w.watchTree w.path (components path.bytes) := by
  by_cases hdel : components path.bytes ≠ [] ∧ (find n.store.root (components path.bytes)).isSome
  · obtain ⟨hne, hsome⟩ := hdel
    have hseats : Unseats w n.store.root (.deleteKey path) ↔ components path.bytes <+: w.path := by
      constructor
      · rintro ⟨_, heq, _, _, hpre⟩
        obtain rfl := Call.deleteKey.inj heq
        exact hpre
      · exact fun hpre => ⟨path, rfl, hne, hsome, hpre⟩
    have hroot : ∀ q, (find (n.call (.deleteKey path)).after.store.root q).isSome ↔
        (find n.store.root q).isSome ∧ ¬ components path.bytes <+: q := by
      intro q
      simp only [Notifier.call, Notifier.deleteKey, Notifier.run_of_seeded hn]
      rw [if_neg hne, if_pos ((deleteKey_ok ..).2 ⟨hne, hsome⟩)]
      rcases deleteKey_eq n.store path with ⟨-, h | h⟩ | ⟨parent, leaf, hcomps, hleaf, h⟩
      · exact absurd h hne
      · simp [h] at hsome
      · simp only [Notifier.report, h, Change.apply, deleteChange, persist_root, hcomps]
        exact find_delete_isSome_iff leaf hleaf
    rw [Due, hseats, and_iff_right hne, and_iff_right hsome]
    constructor
    · rintro ⟨hpre, ⟨q, h | h, hunder⟩ | ⟨q, ⟨_, _, _, _, ⟨⟩, _⟩, _⟩⟩
      · have hq := ((hroot q).1 h.2).1
        simp [h.1] at hq
      · -- the watched key and the deleted one are both above `q`
        have hq : components path.bytes <+: q := by
          by_contra hq
          have hkept := (hroot q).2 ⟨h.1, hq⟩
          simp [h.2] at hkept
        obtain ⟨leaf, rest, rfl, hrest⟩ := hunder
        rcases prefix_or_prefix_of_prefix hq (prefix_append w.path _) with h' | h'
        · exact absurd h' hpre
        · obtain ⟨t, ht⟩ := h'
          cases t with
          | nil =>
            rw [append_nil] at ht
            exact absurd (ht ▸ prefix_refl _) hpre
          | cons leaf' t =>
            rw [← ht, prefix_append_right_inj, cons_prefix_cons] at hq
            refine ⟨leaf', t, ht.symm, hrest.imp_left ?_⟩
            rintro rfl
            simpa using hq.2
    · intro hunder
      refine ⟨?_, .inl ⟨components path.bytes, .inr ⟨hsome, ?_⟩, hunder⟩⟩
      · exact fun hpre => not_under_of_prefix hpre hunder
      · have hgone := (hroot (components path.bytes)).not.2 fun h => h.2 (prefix_refl _)
        simpa using hgone
  · have hsame : (n.call (.deleteKey path)).after.store.root = n.store.root := by
      simp only [Notifier.call, Notifier.deleteKey, Notifier.run_of_seeded hn]
      split
      · rfl
      · rw [if_neg fun h => hdel ((deleteKey_ok ..).1 h)]
    constructor
    · exact fun hdue => absurd hdue (not_due_of_same hsame fun _ => by rintro ⟨_, _, _, _, ⟨⟩, _⟩)
    · exact fun h => absurd ⟨h.1, h.2.1⟩ hdel

theorem not_due_watch (path : Str) (tree : Bool) (event : Nat) :
    ¬ Due w n (.watch path tree event) := by
  have hsame : (n.call (.watch path tree event)).after.store.root = n.store.root := by
    simp only [call, watch, run_of_seeded hn]
    split <;> rfl
  exact not_due_of_same hsame fun _ => by rintro ⟨_, _, _, _, ⟨⟩, _⟩

/-! ## Reports against changes -/

variable (hw : w ∈ n.watches)
include hw

theorem mem_fired_createOwned (path : Str) (uid : UInt32) :
    w ∈ (n.createOwned path uid).fired ↔ find n.store.root (components path.bytes) = none ∧
      (components path.bytes = w.path ∨ Under w.watchTree w.path (components path.bytes)) := by
  unfold Notifier.createOwned
  rw [Notifier.run_of_seeded hn]
  dsimp only
  split
  · rename_i hnil
    simp [hnil]
  · split
    · rename_i hsome
      simp [Option.isSome_iff_ne_none.1 hsome]
    · rename_i hnone
      rw [mem_fired_report hw, and_iff_right (by simpa using hnone)]

theorem mem_fired_setValue (path name : Str) (ty : UInt32) (data : Bytes) :
    w ∈ (n.setValue path name ty data).fired ↔ (find n.store.root (components path.bytes)).isSome ∧
      (components path.bytes = w.path ∨ Under w.watchTree w.path (components path.bytes)) := by
  have hok : (Registry.setValue n.store path name ty data).1 =
      (find n.store.root (components path.bytes)).isSome := by
    rw [Registry.setValue, findMut_eq _ _ 0]
    cases find n.store.root (components path.bytes) <;> rfl
  unfold Notifier.setValue
  rw [Notifier.run_of_seeded hn]
  dsimp only
  rw [hok]
  split
  · rename_i h
    rw [mem_fired_report hw, and_iff_right h]
  · rename_i h
    simp [h]

theorem mem_fired_deleteKey (path : Str) :
    w ∈ (n.deleteKey path).fired ↔ components path.bytes ≠ [] ∧
      (find n.store.root (components path.bytes)).isSome ∧
      ((components path.bytes).dropLast = w.path ∨
        Under w.watchTree w.path (components path.bytes).dropLast) := by
  have hok := deleteKey_ok n.store path
  unfold Notifier.deleteKey
  rw [Notifier.run_of_seeded hn]
  dsimp only
  split
  · rename_i hnil
    simp [hnil]
  · split
    · rename_i h
      obtain ⟨hne, hsome⟩ := hok.1 h
      rw [mem_fired_report hw, and_iff_right hne, and_iff_right hsome]
    · rename_i hne h
      rw [hok] at h
      simp only [not_mem_nil, false_iff]
      exact fun hdue => h ⟨hdue.1, hdue.2.1⟩

theorem fires_iff_due_createOwned (path : Str) (uid : UInt32) :
    (w ∈ (n.createOwned path uid).fired ↔ Due w n (.createOwned path uid)) ↔
      ¬ Misreported w n.store.root (.createOwned path uid) := by
  rw [mem_fired_createOwned hn hw, due_createOwned_iff hn]
  constructor
  · intro h hmis
    cases hmis with
    | recreated _ _ hcomps hnone =>
      obtain ⟨q, -, hq, hunder⟩ := h.1 ⟨hcomps ▸ hnone, .inl hcomps⟩
      exact not_under_of_prefix (hcomps ▸ hq) hunder
    | ancestor _ _ leaf rest htree hcomps hrest hnone =>
      have hpre : w.path ++ [leaf] <+: components path.bytes := by simp [hcomps]
      obtain ⟨-, h | h⟩ := h.2 ⟨_, hnone, hpre, leaf, [], rfl, .inl rfl⟩
      · simp [hcomps] at h
      · rw [hcomps, under_append] at h
        simp [hrest, htree] at h
  · intro hmis
    constructor
    · rintro ⟨hnone, heq | hunder⟩
      · exact absurd (.recreated path uid heq (heq ▸ hnone)) hmis
      · exact ⟨_, hnone, prefix_refl _, hunder⟩
    · rintro ⟨q, hnone, ⟨t, ht⟩, leaf, rest, rfl, hrest⟩
      refine ⟨?_, .inr ?_⟩
      · -- a key below a missing one is missing
        by_contra hsome
        have hq := find_isSome_above ⟨t, ht⟩ (Option.isSome_iff_ne_none.2 hsome)
        simp [hnone] at hq
      · rw [← ht, append_assoc, cons_append, under_append]
        by_contra hdeep
        push Not at hdeep
        obtain rfl := hrest.resolve_right hdeep.2
        refine hmis (.ancestor path uid leaf t (by simpa using hdeep.2) ?_ hdeep.1 hnone)
        rw [← ht, append_assoc, cons_append, nil_append]

theorem fires_iff_due_deleteKey (path : Str) :
    (w ∈ (n.deleteKey path).fired ↔ Due w n (.deleteKey path)) ↔
      ¬ Misreported w n.store.root (.deleteKey path) := by
  rw [mem_fired_deleteKey hn hw, due_deleteKey_iff hn]
  constructor
  · intro h hmis
    cases hmis with
    | grandchild _ leaf leaf' htree hcomps hsome =>
      have hne : components path.bytes ≠ [] := by simp [hcomps]
      have hpar : (components path.bytes).dropLast = w.path ++ [leaf] := by
        rw [hcomps, show w.path ++ [leaf, leaf'] = (w.path ++ [leaf]) ++ [leaf'] by simp,
          dropLast_concat]
      obtain ⟨-, -, hunder⟩ := h.1 ⟨hne, hsome, .inr ⟨leaf, [], hpar, .inl rfl⟩⟩
      rw [hcomps, under_append] at hunder
      simp [htree] at hunder
  · intro hmis
    constructor
    · rintro ⟨hne, hsome, hfires⟩
      refine ⟨hne, hsome, ?_⟩
      have hcomps := dropLast_append_getLast hne
      rcases hfires with heq | ⟨leaf, rest, heq, hrest⟩
      · rw [heq] at hcomps
        exact ⟨_, [], hcomps.symm, .inl rfl⟩
      · rw [heq, append_assoc, cons_append] at hcomps
        rw [← hcomps, under_append]
        by_contra hdeep
        push Not at hdeep
        obtain rfl := hrest.resolve_right hdeep.2
        exact hmis (.grandchild path leaf _ (by simpa using hdeep.2) hcomps.symm hsome)
    · rintro ⟨hne, hsome, leaf, rest, hcomps, hrest⟩
      refine ⟨hne, hsome, ?_⟩
      rw [hcomps, dropLast_append_of_ne_nil (cons_ne_nil _ _)]
      cases rest with
      | nil => simp
      | cons leaf' rest =>
        right
        rw [dropLast_cons_cons, under_append]
        exact .inr (hrest.resolve_left (cons_ne_nil _ _))

/-- An armed watch is signalled by a call exactly when it waits for it, unless the call is one
that is not reported as what it is. -/
theorem fires_iff_due (c : Call) :
    (w ∈ (n.call c).fired ↔ Due w n c) ↔ ¬ Misreported w n.store.root c := by
  cases c with
  | createOwned path uid => exact fires_iff_due_createOwned hn hw path uid
  | deleteKey path => exact fires_iff_due_deleteKey hn hw path
  | setValue path name ty data =>
    have hsame : w ∈ (n.call (.setValue path name ty data)).fired ↔
        Due w n (.setValue path name ty data) := by
      rw [due_setValue_iff hn]
      exact mem_fired_setValue hn hw path name ty data
    exact iff_of_true hsame (by rintro ⟨⟩)
  | watch path tree event =>
    exact iff_of_true
      (iff_of_false (mem_fired_watch path tree event) (not_due_watch hn path tree event))
      (by rintro ⟨⟩)

end Calls

/-! ## Runs -/

section Runs

variable {n : Notifier} {w : WatchEntry}

theorem call_watches (n : Notifier) (c : Call) :
    (∃ p : WatchEntry → Bool, (n.call c).after.watches = n.watches.filter (fun v => !p v) ∧
      (n.call c).fired = n.watches.filter p ∧ (n.call c).after.armed = n.armed) ∨
    ∃ v : WatchEntry, v.serial = n.armed ∧ (n.call c).after.watches = n.watches ++ [v] ∧
      (n.call c).fired = [] ∧ (n.call c).after.armed = n.armed + 1 := by
  have hrun : n.run.watches = n.watches ∧ n.run.armed = n.armed := by
    unfold Notifier.run
    split <;> exact ⟨rfl, rfl⟩
  have hrep : ∀ store changed, ∃ p : WatchEntry → Bool,
      (n.run.report store changed).after.watches = n.watches.filter (fun v => !p v) ∧
      (n.run.report store changed).fired = n.watches.filter p ∧
      (n.run.report store changed).after.armed = n.armed := by
    intro store changed
    refine ⟨fun v => watchMatches v.path v.watchTree changed, ?_, ?_, hrun.2⟩
    · rw [Notifier.report, fire_fst, hrun.1]
    · rw [Notifier.report, fire_snd, hrun.1]
  have hquiet : ∀ m : Notifier, m.watches = n.watches → m.armed = n.armed →
      ∃ p : WatchEntry → Bool, m.watches = n.watches.filter (fun v => !p v) ∧
        [] = n.watches.filter p ∧ m.armed = n.armed :=
    fun m hws harmed => ⟨fun _ => false, by simp [hws], by simp, harmed⟩
  cases c with
  | createOwned path uid =>
    left
    simp only [Notifier.call, Notifier.createOwned]
    split
    · exact hquiet n rfl rfl
    · split
      · exact hquiet _ hrun.1 hrun.2
      · exact hrep ..
  | setValue path name ty data =>
    left
    simp only [Notifier.call, Notifier.setValue]
    split
    · exact hrep ..
    · exact hquiet _ hrun.1 hrun.2
  | deleteKey path =>
    left
    simp only [Notifier.call, Notifier.deleteKey]
    split
    · exact hquiet n rfl rfl
    · split
      · exact hrep ..
      · exact hquiet _ hrun.1 hrun.2
  | watch path tree event =>
    simp only [Notifier.call, Notifier.watch]
    split
    · right
      refine ⟨n.entry path tree event, rfl, ?_, rfl, rfl⟩
      simp [hrun.1]
    · left
      exact hquiet _ hrun.1 hrun.2

theorem seeded_run (n : Notifier) : n.run.seeded = true := by
  unfold run
  split
  · assumption
  · rfl

theorem seeded_call (hn : n.seeded = true) (c : Call) : (n.call c).after.seeded = true := by
  have hrun := seeded_run n
  cases c with
  | createOwned path uid =>
    simp only [Notifier.call, Notifier.createOwned]
    split
    · exact hn
    · split <;> exact hrun
  | setValue path name ty data =>
    simp only [Notifier.call, Notifier.setValue]
    split <;> exact hrun
  | deleteKey path =>
    simp only [Notifier.call, Notifier.deleteKey]
    split
    · exact hn
    · split <;> exact hrun
  | watch path tree event =>
    simp only [Notifier.call, Notifier.watch]
    split <;> exact hrun

/-- Every armed watch is a registration of its own. -/
structure Numbered (n : Notifier) : Prop where
  below : ∀ v ∈ n.watches, v.serial < n.armed
  nodup : n.watches.Nodup

theorem numbered_new (store : Store) (seeded : Bool) : Numbered (.new store seeded) :=
  ⟨fun _ h => absurd h not_mem_nil, nodup_nil⟩

theorem numbered_call (hn : Numbered n) (c : Call) : Numbered (n.call c).after := by
  rcases call_watches n c with ⟨p, hws, -, harmed⟩ | ⟨v, hser, hws, -, harmed⟩
  · refine ⟨fun v hv => ?_, hws ▸ hn.nodup.filter _⟩
    rw [harmed]
    rw [hws] at hv
    exact hn.below v (mem_of_mem_filter hv)
  · constructor
    · intro u hu
      rw [hws, mem_append, mem_singleton] at hu
      rcases hu with hu | rfl
      · exact (hn.below u hu).trans (by omega)
      · omega
    · rw [hws, nodup_append_comm]
      exact nodup_cons.2 ⟨fun hv => absurd (hn.below v hv) (by omega), hn.nodup⟩

theorem numbered_after (hn : Numbered n) (cs : List Call) : Numbered (n.after cs) := by
  induction cs generalizing n with
  | nil => exact hn
  | cons c cs ih => exact ih (numbered_call hn c)

/-- The registration `w` has been made, and the standard roots are in place. -/
structure Tracked (n : Notifier) (w : WatchEntry) : Prop where
  seeded : n.seeded = true
  numbered : Numbered n
  serial : w.serial < n.armed

theorem tracked_call (h : Tracked n w) (c : Call) : Tracked (n.call c).after w := by
  refine ⟨seeded_call h.seeded c, numbered_call h.numbered c, ?_⟩
  have hser := h.serial
  rcases call_watches n c with ⟨-, -, -, harmed⟩ | ⟨-, -, -, -, harmed⟩ <;> omega

theorem tracked_after (h : Tracked n w) (cs : List Call) : Tracked (n.after cs) w := by
  induction cs generalizing n with
  | nil => exact h
  | cons c cs ih => exact ih (tracked_call h c)

theorem mem_watches_call (h : Tracked n w) (c : Call) :
    w ∈ (n.call c).after.watches ↔ w ∈ n.watches ∧ w ∉ (n.call c).fired := by
  rcases call_watches n c with ⟨p, hws, hfired, -⟩ | ⟨v, hser, hws, hfired, -⟩
  · rw [hws, hfired, mem_filter, mem_filter]
    grind
  · have hv : w ≠ v := by
      rintro rfl
      exact absurd h.serial (by omega)
    rw [hws, hfired]
    simp [hv]

theorem mem_watches_of_fired {c : Call} (h : w ∈ (n.call c).fired) : w ∈ n.watches := by
  rcases call_watches n c with ⟨p, -, hfired, -⟩ | ⟨v, -, -, hfired, -⟩
  · rw [hfired] at h
    exact mem_of_mem_filter h
  · rw [hfired] at h
    exact absurd h not_mem_nil

theorem count_fired_le_one (hn : Numbered n) (c : Call) : (n.call c).fired.count w ≤ 1 := by
  rcases call_watches n c with ⟨p, -, hfired, -⟩ | ⟨v, -, -, hfired, -⟩
  · rw [hfired]
    exact nodup_iff_count_le_one.1 (hn.nodup.filter p) w
  · rw [hfired]
    exact Nat.zero_le _

theorem after_take_succ {cs : List Call} {i : Nat} {c : Call} (h : cs[i]? = some c) :
    n.after (cs.take (i + 1)) = ((n.after (cs.take i)).call c).after := by
  rw [take_add_one, h, Notifier.after, foldl_append]
  rfl

theorem mem_watches_after (h : Tracked n w) (hw : w ∈ n.watches) {cs : List Call} {i : Nat}
    (hi : i ≤ cs.length) : w ∈ (n.after (cs.take i)).watches ↔
      ∀ j c, j < i → cs[j]? = some c → w ∉ ((n.after (cs.take j)).call c).fired := by
  induction i with
  | zero => simpa [Notifier.after] using hw
  | succ i ih =>
    have hc : cs[i]? = some cs[i] := getElem?_eq_getElem hi
    rw [after_take_succ hc, mem_watches_call (tracked_after h _), ih (by omega)]
    constructor
    · rintro ⟨hbef, hnow⟩ j c hj hjc
      rcases Nat.lt_succ_iff_lt_or_eq.1 hj with hj | rfl
      · exact hbef j c hj hjc
      · rw [hc] at hjc
        exact Option.some.inj hjc ▸ hnow
    · intro hall
      exact ⟨fun j c hj hjc => hall j c (by omega) hjc, hall i _ (by omega) hc⟩

theorem firesAtFirst_iff (h : Tracked n w) (hw : w ∈ n.watches) (cs : List Call) :
    FiresAtFirst n w cs ↔ ∀ i c, cs[i]? = some c → w ∈ (n.after (cs.take i)).watches →
      ¬ Misreported w (n.after (cs.take i)).store.root c := by
  have hlen : ∀ {i c}, cs[i]? = some c → i ≤ cs.length := fun hc =>
    (List.getElem?_eq_some_iff.1 hc).1.le
  have hstep : ∀ i c, w ∈ (n.after (cs.take i)).watches →
      ((w ∈ ((n.after (cs.take i)).call c).fired ↔ Due w (n.after (cs.take i)) c) ↔
        ¬ Misreported w (n.after (cs.take i)).store.root c) :=
    fun i c hmem => fires_iff_due (tracked_after h _).seeded hmem c
  constructor
  · intro hexact i c hc harmed
    have hquiet := (mem_watches_after h hw (hlen hc)).1 harmed
    -- a call that is waited for before `i` would have fired the watch, the first of them at least
    have hnone : ∀ j c', j < i → cs[j]? = some c' → ¬ Due w (n.after (cs.take j)) c' := by
      intro j
      induction j using Nat.strong_induction_on with
      | _ j ih =>
        intro c' hj hc' hdue
        refine hquiet j c' hj hc' (((hexact j c' hc').2).2 ⟨hdue, ?_⟩)
        exact fun k ck hk hck => ih k hk ck (hk.trans hj) hck
    rw [← hstep i c harmed, (hexact i c hc).2]
    exact and_iff_left hnone
  · intro hgood i c hc
    refine ⟨count_fired_le_one (tracked_after h _).numbered c, ?_⟩
    by_cases harmed : w ∈ (n.after (cs.take i)).watches
    · have hquiet := (mem_watches_after h hw (hlen hc)).1 harmed
      rw [(hstep i c harmed).2 (hgood i c hc harmed), iff_self_and]
      intro _ j c' hj hc' hdue
      have hbef : w ∈ (n.after (cs.take j)).watches :=
        (mem_watches_after h hw (hlen hc')).2 fun k ck hk hck => hquiet k ck (hk.trans hj) hck
      exact hquiet j c' hj hc' (((hstep j c' hbef).2 (hgood j c' hc' hbef)).2 hdue)
    · -- it fired before, at a call it waited for
      have hfired := (mem_watches_after h hw (hlen hc)).not.1 harmed
      push Not at hfired
      obtain ⟨j, c', hj, hc', hfired⟩ := hfired
      have hbef := mem_watches_of_fired hfired
      have hdue := ((hstep j c' hbef).2 (hgood j c' hc' hbef)).1 hfired
      exact iff_of_false (fun hnow => harmed (mem_watches_of_fired hnow))
        fun hboth => hboth.2 j c' hj hc' hdue

theorem tracked_watch (hn : Numbered n) {path : Str} {tree : Bool} {event : Nat}
    (hok : (n.watch path tree event).ok = true) :
    Tracked (n.watch path tree event).after (n.entry path tree event) ∧
      n.entry path tree event ∈ (n.watch path tree event).after.watches := by
  have hafter : (n.watch path tree event).after = { n.run with
      watches := n.run.watches ++ [n.entry path tree event], armed := n.armed + 1 } := by
    unfold watch at hok ⊢
    split at hok
    · rename_i hsome
      rw [if_pos hsome]
    · cases hok
  have hnum := numbered_call hn (.watch path tree event)
  rw [call] at hnum
  refine ⟨⟨?_, hnum, ?_⟩, ?_⟩
  · rw [hafter]
    exact seeded_run n
  · rw [hafter]
    exact lt_add_one _
  · rw [hafter]
    simp

/-- After any calls, a watch that is armed on a key fires exactly at the first later call that
covers it and deletes neither the key nor an ancestor, and at most once, if and only if none of
the calls made while it is armed is misreported. -/
theorem watch_fires_iff (store : Store) (seeded : Bool) (cs₀ : List Call) (path : Str) (tree : Bool)
    (event : Nat) (hok : (((new store seeded).after cs₀).watch path tree event).ok = true)
    (cs : List Call) : FiresAtFirst (((new store seeded).after cs₀).watch path tree event).after
        (((new store seeded).after cs₀).entry path tree event) cs ↔
      ∀ i c, cs[i]? = some c → ((new store seeded).after cs₀).entry path tree event ∈
          ((((new store seeded).after cs₀).watch path tree event).after.after (cs.take i)).watches →
        ¬ Misreported (((new store seeded).after cs₀).entry path tree event)
          ((((new store seeded).after cs₀).watch path tree event).after.after
            (cs.take i)).store.root c := by
  obtain ⟨htracked, hmem⟩ := tracked_watch (numbered_after (numbered_new store seeded) cs₀) hok
  exact firesAtFirst_iff htracked hmem cs

end Runs

/-! ### Two runs -/

/-- An empty tree with no file behind it. -/
def emptyStore : Store := ⟨Key.new, fun _ => none⟩

/-- `machine`, one of the standard roots. -/
def machinePath : Str := ⟨ascii "machine", by decide⟩

/-- A key two levels below `machine`; the level between them does not exist. -/
def deepPath : Str := ⟨ascii "machine\\a\\b", by decide⟩

theorem watch_machine_ok : ((new emptyStore false).watch machinePath false 0).ok = true := by
  decide +kernel

/-- A value that is set on the watched key fires the watch, once. -/
theorem watch_fires_setValue : ((new emptyStore false).watch machinePath false 0).ok = true ∧
    FiresAtFirst ((new emptyStore false).watch machinePath false 0).after
      ((new emptyStore false).entry machinePath false 0)
      [.setValue machinePath machinePath 4 [1], .setValue machinePath machinePath 4 [2]] := by
  refine ⟨watch_machine_ok, (watch_fires_iff emptyStore false [] machinePath false 0
    watch_machine_ok _).2 ?_⟩
  intro i c hc _ hmis
  match i, hc with
  | 0, hc | 1, hc =>
    cases hc
    cases hmis

/-- Creating `machine\a\b` creates the direct subkey `machine\a` too, and the watch on `machine`
does not fire. -/
theorem watch_misses_ancestor : ((new emptyStore false).watch machinePath false 0).ok = true ∧
    ¬ FiresAtFirst ((new emptyStore false).watch machinePath false 0).after
      ((new emptyStore false).entry machinePath false 0) [.createOwned deepPath 0] := by
  obtain ⟨htracked, hmem⟩ := tracked_watch (numbered_new emptyStore false) watch_machine_ok
  refine ⟨watch_machine_ok, fun hfires => ?_⟩
  refine (firesAtFirst_iff htracked hmem _).1 hfires 0 _ rfl hmem ?_
  refine .ancestor deepPath 0 (ascii "a") [ascii "b"] rfl (by decide +kernel) (by decide) ?_
  exact Option.isNone_iff_eq_none.1 (by decide +kernel)

end Thos.Registry
