import Thos.Lib.Run

/-!
# The rings of the xHCI driver

A ring is a page of 256 entries. The writer gives every entry its cycle bit and turns the bit
around after a lap; the reader takes an entry only if the bit is the reader's own. The driver
writes to a `Ring`, whose last entry is a Link that leads the controller back to the first. The
controller writes all entries of the event ring, which `EventRing::poll` reads.

Write number `q` goes to slot `q % 256` in lap `q / 256`, where writing the Link counts as well.
A reader that is not a lap behind finds it there with the bit of that lap; behind the last write it
finds the bit of the lap before.

The register that `poll` tells the controller about its progress with is left out.
-/

set_option autoImplicit false

namespace Thos.Xhci

open Thos.Lib List Function

/-! ## Rings -/

/-- A transfer request block. -/
structure Trb where
  (d0 d1 d2 d3 : UInt32)

def Trb.withCycle (t : Trb) (c : UInt32) : Trb := { t with d3 := (t.d3 &&& ~~~1) ||| c }

def Trb.cycle (t : Trb) : UInt32 := t.d3 &&& 1

def ringTrbs : Nat := 256

/-- Where one side of a ring goes on, and its cycle bit. -/
structure Cursor where
  idx : Nat
  cycle : UInt32

def Cursor.next (c : Cursor) : Cursor :=
  if c.idx + 1 = ringTrbs then ⟨0, c.cycle ^^^ 1⟩ else { c with idx := c.idx + 1 }

/-- A ring, with a Link or without, and its two sides. `pushed` and `got` note the writes and the
reads with their slots. -/
structure Ring where
  link : Bool
  trbs : Nat → Trb
  (writer reader : Cursor)
  (pushed got : List (Nat × Trb))

namespace Ring

/-- `Ring::new`. -/
def new (phys : UInt64) : Ring where
  link := true
  trbs := update (fun _ => ⟨0, 0, 0, 0⟩) (ringTrbs - 1)
    ⟨phys.toUInt32, (phys >>> 32).toUInt32, 0, (6 : UInt32) <<< 10 ||| (1 : UInt32) <<< 1 ||| 1⟩
  writer := ⟨0, 1⟩
  reader := ⟨0, 1⟩
  pushed := []
  got := []

def events : Ring := ⟨false, fun _ => ⟨0, 0, 0, 0⟩, ⟨0, 1⟩, ⟨0, 1⟩, [], []⟩

variable (r : Ring)

def write (trb : Trb) : Ring :=
  { r with
    trbs := update r.trbs r.writer.idx (trb.withCycle r.writer.cycle)
    writer := r.writer.next
    pushed := r.pushed ++ [(r.writer.idx, trb)] }

/-- `Ring::push`: the Link is written as soon as it is its turn. -/
def push (trb : Trb) : Ring :=
  let r := r.write trb
  if r.writer.idx = ringTrbs - 1 then r.write (r.trbs (ringTrbs - 1)) else r

/-- `EventRing::poll`, or the controller at a `Ring`. -/
def poll : Ring :=
  let trb := r.trbs r.reader.idx
  if trb.cycle ≠ r.reader.cycle then r
  else { r with reader := r.reader.next, got := r.got ++ [(r.reader.idx, trb)] }

inductive Act
  | write (trb : Trb)
  | read

/-- The entry that the action writes, up to its cycle bit. -/
def Act.entry : Act → Option Trb
  | .write trb => some (trb.withCycle 0)
  | .read => none

def step : Act → Option Ring
  | .write trb => some (if r.link then r.push trb else r.write trb)
  | .read => some r.poll

/-- An entry up to its cycle bit. -/
def body (e : Nat × Trb) : Nat × Trb := (e.1, e.2.withCycle 0)

/-- The entries among the writes or the reads. -/
def entries (link : Bool) (l : List (Nat × Trb)) : List Trb :=
  ((l.map body).filter fun e => ¬ (link ∧ e.1 = ringTrbs - 1)).map (·.2)

/-- How many entries are written, and how many are read. -/
def sizes : Nat × Nat := ((entries r.link r.pushed).length, (entries r.link r.got).length)

/-- At most 254 entries are unread after the step. -/
def Room : Act → Prop
  | .write _ => r.sizes.1 < r.sizes.2 + 254
  | .read => True

instance (r : Ring) : ∀ a, Decidable (r.Room a)
  | .write _ => inferInstanceAs (Decidable (_ < _))
  | .read => .isTrue trivial

/-- After the actions `as`, what was read is what they wrote, in order. An unread entry is read at
the next step, or, at the Link, at the one after. -/
structure Delivers (as : List Act) : Prop where
  pushed : entries r.link r.pushed = as.filterMap Act.entry
  order : entries r.link r.got <+: entries r.link r.pushed
  next : r.sizes.2 < r.sizes.1 → r.sizes.2 <
    (if r.link ∧ r.reader.idx = ringTrbs - 1 then r.poll.poll else r.poll).sizes.2

/-! ## Laps -/

/-- The cycle bit of write number `q`. -/
def lap (q : Nat) : UInt32 := if q / 256 % 2 = 0 then 1 else 0

/-- A side that is done with `q` of them. -/
def after (q : Nat) : Cursor := ⟨q % 256, lap q⟩

theorem next_at (q : Nat) : (after q).next = after (q + 1) := by
  have hmod : (q + 1) % 256 = if q % 256 + 1 = ringTrbs then 0 else q % 256 + 1 := by
    unfold ringTrbs
    split_ifs <;> omega
  have hlap : lap (q + 1) = if q % 256 + 1 = ringTrbs then lap q ^^^ 1 else lap q := by
    unfold lap ringTrbs
    split_ifs <;> first | rfl | omega
  rw [after, after, Cursor.next, hmod, hlap]
  split_ifs <;> rfl

theorem or_and (x y z : UInt32) : (x ||| y) &&& z = (x &&& z) ||| (y &&& z) :=
  UInt32.toBitVec_inj.1 (BitVec.and_or_distrib_right ..)

theorem cycle_withCycle (t : Trb) (q : Nat) : (t.withCycle (lap q)).cycle = lap q := by
  rw [Trb.cycle, Trb.withCycle, or_and, UInt32.and_assoc, lap]
  split_ifs <;> simp

theorem withCycle_withCycle (t : Trb) (q : Nat) :
    (t.withCycle (lap q)).withCycle 0 = t.withCycle 0 := by
  simp only [Trb.withCycle, or_and, UInt32.and_assoc, lap]
  split_ifs <;> simp

/-! ## The invariant -/

variable {r}

theorem entries_append (link : Bool) (l : List (Nat × Trb)) (i : Nat) (t : Trb) :
    entries link (l ++ [(i, t)]) =
      entries link l ++ if link ∧ i = 255 then [] else [t.withCycle 0] := by
  cases link <;> by_cases hi : i = 255 <;> simp [entries, body, ringTrbs, hi]

/-- How many of `n` writes are entries. -/
def count (link : Bool) (n : Nat) : Nat := if link then n - n / 256 else n

/-- The Links are the only writes that are no entries. -/
def Counted (link : Bool) (l : List (Nat × Trb)) : Prop :=
  (entries link l).length = count link l.length

theorem Counted.append {link : Bool} {l : List (Nat × Trb)} (h : Counted link l) (t : Trb) :
    Counted link (l ++ [(l.length % 256, t)]) := by
  rw [Counted, entries_append, length_append, h, length_append, length_singleton]
  unfold count
  split_ifs <;> simp_all <;> omega

/-- The writes of the last lap are in their slots, and the slots not used yet are blank, but for
the Link. What was read was written. -/
structure Tracks (r : Ring) : Prop where
  recent : ∀ q e, r.pushed[q]? = some e → e.1 = q % 256 ∧
    (r.pushed.length ≤ q + 256 → r.trbs (q % 256) = e.2.withCycle (lap q))
  blank : ∀ i < 256, r.pushed.length ≤ i → (r.link → i ≠ 255) → (r.trbs i).cycle = 0
  writer : r.writer = after r.pushed.length
  reader : r.reader = after r.got.length
  order : r.got.map body = (r.pushed.map body).take r.got.length
  le : r.got.length ≤ r.pushed.length
  pushed : Counted r.link r.pushed
  got : Counted r.link r.got

theorem Tracks.sizes (h : Tracks r) :
    r.sizes = (count r.link r.pushed.length, count r.link r.got.length) :=
  Prod.ext h.pushed h.got

theorem length_write (t : Trb) : (r.write t).pushed.length = r.pushed.length + 1 := length_append ..

theorem got_write (t : Trb) : (r.write t).got = r.got := rfl

theorem Tracks.write (h : Tracks r) (t : Trb) : Tracks (r.write t) where
  recent q e he := by
    simp only [Ring.write, h.writer, after, getElem?_append] at he ⊢
    split_ifs at he with hq
    · obtain ⟨hslot, htrb⟩ := h.recent q e he
      refine ⟨hslot, fun hle => ?_⟩
      rw [length_append, length_singleton] at hle
      rw [update_of_ne (by omega), htrb (by omega)]
    · obtain ⟨hq', rfl⟩ := List.getElem?_eq_some_iff.1 he
      obtain rfl : q = r.pushed.length := by
        rw [length_singleton] at hq'
        omega
      simp
  blank i hi hle hlink := by
    simp only [Ring.write, h.writer, after, length_append, length_singleton] at hle ⊢
    rw [update_of_ne (by omega)]
    exact h.blank i hi (by omega) hlink
  writer := by simp [Ring.write, h.writer, next_at]
  reader := h.reader
  order := by
    simp only [Ring.write, map_append]
    rw [take_append_of_le_length (by simpa using h.le)]
    exact h.order
  le := by
    have := h.le
    simp only [Ring.write, length_append]
    omega
  pushed := by
    simp only [Ring.write, h.writer]
    exact h.pushed.append t
  got := h.got

/-- Between two calls the reader is at most a lap behind, and the writer is not at the Link. -/
structure Inv (r : Ring) : Prop extends Tracks r where
  room : r.pushed.length ≤ r.got.length + 256
  last : r.link → r.pushed.length % 256 ≠ 255

theorem Inv.cycle_eq_iff (h : Inv r) :
    (r.trbs (r.got.length % 256)).cycle = lap r.got.length ↔ r.got.length < r.pushed.length := by
  have hle := h.le
  have hroom := h.room
  constructor
  · intro heq
    by_contra hge
    by_cases hlt : r.got.length < 256
    · have hlast := h.last
      rw [Nat.mod_eq_of_lt hlt, h.blank _ hlt (by omega) (by grind), lap] at heq
      split_ifs at heq
      · contradiction
      · omega
    · have hslot := (h.recent _ _ (getElem?_eq_getElem (i := r.got.length - 256) (by omega))).2
        (by omega)
      rw [show (r.got.length - 256) % 256 = r.got.length % 256 by omega] at hslot
      rw [hslot, cycle_withCycle, lap, lap] at heq
      split_ifs at heq <;> first | omega | exact absurd heq (by decide)
  · intro hlt
    rw [(h.recent _ _ (getElem?_eq_getElem hlt)).2 hroom]
    exact cycle_withCycle ..

theorem Inv.poll (h : Inv r) : Inv r.poll ∧
    r.poll.got.length = r.got.length + if r.got.length < r.pushed.length then 1 else 0 := by
  by_cases hlt : r.got.length < r.pushed.length
  · have hpoll : r.poll = { r with
        reader := after (r.got.length + 1)
        got := r.got ++ [(r.got.length % 256, r.trbs (r.got.length % 256))] } := by
      rw [Ring.poll, h.reader, next_at]
      exact if_neg (not_not.2 (h.cycle_eq_iff.2 hlt))
    have ⟨hslot, htrb⟩ := h.recent _ _ (getElem?_eq_getElem hlt)
    have hroom := h.room
    rw [hpoll, if_pos hlt]
    refine ⟨{ h with reader := ?_, order := ?_, le := ?_, got := h.got.append _, room := ?_ }, ?_⟩
    · simp
    · simp only [map_append, length_append, length_singleton, take_add_one, ← h.order,
        getElem?_map, getElem?_eq_getElem hlt]
      simp [body, htrb hroom, hslot, withCycle_withCycle]
    · simpa using Nat.succ_le_of_lt hlt
    · simp only [length_append]
      omega
    · simp
  · have hpoll : r.poll = r := by
      rw [Ring.poll, h.reader]
      exact if_pos fun heq => hlt (h.cycle_eq_iff.1 heq)
    rw [hpoll, if_neg hlt]
    exact ⟨h, rfl⟩

theorem pushed_poll : r.poll.pushed = r.pushed ∧ r.poll.link = r.link := by
  unfold Ring.poll
  dsimp only
  split_ifs <;> exact ⟨rfl, rfl⟩

theorem length_step (t : Trb) {r' : Ring} (h : r.step (.write t) = some r') :
    r'.got = r.got ∧ r'.pushed.length ≤ r.pushed.length + 2 := by
  cases h
  unfold push
  dsimp only
  split_ifs <;> simp [length_write, got_write]

theorem Inv.step (h : Inv r) {a : Act} {r' : Ring} (hroom : r.Room a) (hstep : r.step a = some r') :
    Inv r' ∧ entries r'.link r'.pushed = entries r.link r.pushed ++ a.entry.toList := by
  cases a with
  | read =>
    cases hstep
    obtain ⟨hpushed, hlink⟩ := r.pushed_poll
    exact ⟨h.poll.1, by simp [hpushed, hlink, Act.entry]⟩
  | write t =>
    cases hstep
    have hwrite := h.write t
    have hentry : entries r.link (r.write t).pushed = entries r.link r.pushed ++
        if r.link ∧ r.pushed.length % 256 = 255 then [] else [t.withCycle 0] := by
      rw [Ring.write, entries_append, h.writer, after]
    simp only [Room, h.sizes, count] at hroom
    cases hlink : r.link <;> simp only [hlink, Bool.false_eq_true, if_false, if_true] at hroom ⊢
    · refine ⟨⟨hwrite, ?_, fun hl => absurd hl (by simp [Ring.write, hlink])⟩, ?_⟩
      · rw [length_write, got_write]
        omega
      · rw [if_neg (by simp [hlink]), hlink] at hentry
        rw [show (r.write t).link = false from hlink, hentry]
        rfl
    · have hlast := h.last hlink
      rw [hlink, if_neg fun hl => hlast hl.2] at hentry
      rw [push, hwrite.writer, after, length_write, ringTrbs]
      dsimp only
      split_ifs with hend
      · refine ⟨⟨hwrite.write _, ?_, fun _ => ?_⟩, ?_⟩
        · rw [length_write, length_write, got_write, got_write]
          omega
        · rw [length_write, length_write]
          omega
        · -- the Link is no entry
          rw [Ring.write, show (r.write t).link = true from hlink, entries_append, hwrite.writer,
            after, length_write, if_pos ⟨rfl, hend⟩, append_nil]
          exact hentry
      · refine ⟨⟨hwrite, ?_, fun _ => ?_⟩, hlink ▸ hentry⟩ <;> rw [length_write]
        · rw [got_write]
          omega
        · omega

theorem inv_new (phys : UInt64) {r₀ : Ring} (h₀ : r₀ = new phys ∨ r₀ = events) :
    Inv r₀ ∧ entries r₀.link r₀.pushed = [] := by
  rcases h₀ with rfl | rfl
  all_goals
    refine ⟨⟨⟨nofun, fun i _ _ hlink => ?_, ?_, ?_, rfl, Nat.le_refl _, ?_, ?_⟩, Nat.zero_le _,
      nofun⟩, rfl⟩
    all_goals simp_all [new, events, ringTrbs, Trb.cycle, after, lap, Counted, entries, count]

theorem inv_of_run {as : List Act} {r₀ : Ring} (h₀ : Inv r₀ ∧ entries r₀.link r₀.pushed = [])
    (h : runAll (guarded step Room) r₀ as = some r) :
    Inv r ∧ entries r.link r.pushed = as.filterMap Act.entry := by
  refine runAll_invariant (P := fun as r => Inv r ∧ entries r.link r.pushed =
    as.filterMap Act.entry) (fun as r a r' ⟨hinv, hpushed⟩ hstep => ?_) h h₀
  obtain ⟨hroom, hstep⟩ := Option.ite_none_right_eq_some.1 hstep
  obtain ⟨hinv', hpushed'⟩ := hinv.step hroom hstep
  refine ⟨hinv', hpushed'.trans ?_⟩
  rw [hpushed, filterMap_append]
  cases a <;> rfl

/-- However pushes and reads are interleaved, with at most 254 entries unread, the reader gets the
entries. -/
theorem rings_deliver (phys : UInt64) {r₀ r : Ring} (h₀ : r₀ = new phys ∨ r₀ = events)
    {as : List Act} (h : runAll (guarded step Room) r₀ as = some r) : r.Delivers as := by
  obtain ⟨hinv, hwritten⟩ := inv_of_run (inv_new phys h₀) h
  have ⟨hinv₁, hlen₁⟩ := hinv.poll
  have ⟨hinv₂, hlen₂⟩ := hinv₁.poll
  refine ⟨hwritten, ((hinv.order ▸ take_prefix ..).filter _).map _, fun hlt => ?_⟩
  have ⟨hpushed, hlink⟩ := r.pushed_poll
  have hlt' : r.got.length < r.pushed.length := by
    simp only [hinv.sizes, count] at hlt
    split_ifs at hlt <;> omega
  rw [hpushed] at hlen₂
  rw [if_pos hlt'] at hlen₁
  rw [hinv.sizes] at hlt ⊢
  split_ifs with hend <;> rw [hinv.reader, after, ringTrbs] at hend
  · rw [hinv₂.sizes, pushed_poll.2, hlink, hlen₂, hlen₁]
    simp only [count, hend.1, if_true] at hlt ⊢
    split_ifs <;> omega
  · rw [hinv₁.sizes, hlink, hlen₁]
    simp only [count] at hlt ⊢
    split_ifs at hlt ⊢ with hl
    · have := not_and.1 hend hl
      dsimp only at this
      omega
    · omega

/-- Push the entries one after the other, and read each, and what may be the Link. -/
def readEach (ts : List Trb) : List Act := ts.flatMap fun t => [.write t, .read, .read]

theorem exists_readEach (ts : List Trb) : ∃ r,
    runAll (guarded step Room) (new 0) (readEach ts) = some r ∧
      r.got.length = r.pushed.length := by
  induction ts using List.reverseRecOn with
  | nil => exact ⟨_, rfl, rfl⟩
  | append_singleton ts t ih =>
    obtain ⟨r, hrun, hall⟩ := ih
    obtain ⟨hinv, -⟩ := inv_of_run (inv_new 0 (.inl rfl)) hrun
    have hroom : r.Room (.write t) := by
      simp only [Room, hinv.sizes, hall]
      omega
    obtain ⟨r', hstep⟩ : ∃ r', r.step (.write t) = some r' := ⟨_, rfl⟩
    obtain ⟨hgot, hle⟩ := length_step t hstep
    obtain ⟨hinv', -⟩ := hinv.step hroom hstep
    obtain ⟨hinv₁, hlen₁⟩ := hinv'.poll
    obtain ⟨-, hlen₂⟩ := hinv₁.poll
    refine ⟨r'.poll.poll, ?_, ?_⟩
    · rw [readEach, flatMap_append, runAll, foldlM_append]
      refine Option.bind_eq_some_iff.2 ⟨r, hrun, ?_⟩
      refine Option.bind_eq_some_iff.2 ⟨r', (if_pos hroom).trans hstep, rfl⟩
    · have hge := hinv'.le
      rw [hgot] at hge
      rw [hlen₂, hlen₁, pushed_poll.1, pushed_poll.1, pushed_poll.1, hgot]
      split_ifs <;> omega

/-- 300 entries are pushed and read, across the end of the ring. -/
theorem rings_deliver_wrapped : ∃ r : Ring,
    let as := readEach ((range 300).map fun i => ⟨i.toUInt32, 0, 0, 0⟩)
    r.Delivers as ∧ entries r.link r.got = as.filterMap Act.entry := by
  obtain ⟨r, hrun, hall⟩ := exists_readEach ((range 300).map fun i => ⟨i.toUInt32, 0, 0, 0⟩)
  have h := rings_deliver 0 (.inl rfl) hrun
  obtain ⟨hinv, -⟩ := inv_of_run (inv_new 0 (.inl rfl)) hrun
  have hgot : r.got.map body = r.pushed.map body := by
    rw [hinv.order, hall, ← length_map body, take_length]
  refine ⟨r, h, Eq.trans ?_ h.pushed⟩
  rw [entries, hgot, entries]

end Ring

end Thos.Xhci
