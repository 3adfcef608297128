import Thos.Registry.Hive

/-!
# Device names

`device.rs` takes a path of the NT object namespace to a device and a path on it. Two names below
`\Device\` are known, and each is stripped off the path as a string; a drive letter stands for one
of them; what starts with neither is on the default volume.
-/

set_option autoImplicit false

namespace Thos.File

open Thos.Lib Registry List

inductive Device
  | ext2
  | cdrom
  deriving DecidableEq

def pathParts (s : Bytes) : List Bytes := (s.splitOnP isSep).filter (· ≠ [])

def toPosix (s : Bytes) : Bytes :=
  (pathParts s).foldl (fun out part => (if out.length > 1 then out ++ [47] else out) ++ part) [47]

def toAsciiUppercase (b : UInt8) : UInt8 := if 0x61 ≤ b ∧ b ≤ 0x7A then b - 0x20 else b

/-- `&s[i..]`, which panics inside a character. -/
def sliceFrom (s : Bytes) (i : Nat) : Option Bytes :=
  if (s.drop i).head?.any isContinuation then none else some (s.drop i)

def deviceDir : Bytes := ascii "\\Device\\"

/-- The names below `\Device\` that something backs. -/
def devices : List (Bytes × Device) :=
  [(ascii "HarddiskVolume1", .ext2), (ascii "CdRom0", .cdrom)]

/-- `resolve`; `none` where it panics. -/
def resolve (win : Bytes) : Option (Option (Device × Bytes)) :=
  if win[1]? = some 58 then
    match win.head?.map toAsciiUppercase with
    | some 67 => (sliceFrom win 2).map fun rest => some (.ext2, toPosix rest)
    | some 68 => (sliceFrom win 2).map fun rest => some (.cdrom, toPosix rest)
    | _ => some none
  else
    match devices.find? fun x => (deviceDir ++ x.1).isPrefixOf win with
    | some (name, dev) => some (some (dev, toPosix (win.drop (deviceDir ++ name).length)))
    | none => if deviceDir.isPrefixOf win then some none else some (some (.ext2, toPosix win))

/-- The component after `Device` is the name of the device, and the others are the path. -/
def Names (parts : List Bytes) (v : Device × Bytes) : Prop :=
  ∃ x ∈ devices, ∃ rest, parts = ascii "Device" :: x.1 :: rest ∧
    v = (x.2, 47 :: [47].intercalate rest)

/-- `resolve` returns, and takes a `\Device` name by whole components. -/
def ByComponents (w : Str) : Prop :=
  resolve w.bytes ≠ none ∧ (deviceDir <+: w.bytes → ∀ v, resolve w.bytes = some (some v) →
    Names (pathParts w.bytes) v)

theorem intercalate_append (a p : Bytes) (ps : List Bytes) :
    [47].intercalate ((a ++ p) :: ps) = a ++ [47].intercalate (p :: ps) := by
  cases ps with
  | nil => simp
  | cons q ps => simp

theorem toPosix_eq (s : Bytes) : toPosix s = 47 :: [47].intercalate (pathParts s) := by
  rw [toPosix]
  cases hs : pathParts s with
  | nil => rfl
  | cons p ps =>
    have hp : p ≠ [] := by simpa using (mem_filter.1 (hs ▸ mem_cons_self : p ∈ pathParts s)).2
    -- from the second part on the output is not just the slash
    suffices h : ∀ out ≠ [], ps.foldl _ (47 :: out) = 47 :: [47].intercalate (out :: ps) from h p hp
    clear hs hp
    induction ps with
    | nil => simp
    | cons q ps ih =>
      intro out hout
      rw [foldl_cons, if_pos (by simpa [length_pos_iff] using hout), intercalate_cons_cons,
        ← intercalate_append]
      exact ih (out ++ [47] ++ q) (by simp)

theorem pathParts_append {t : Bytes} (hne : t ≠ []) (ht : ∀ b ∈ t, isSep b = false) (rest : Bytes) :
    ∃ y ys, rest.splitOnP isSep = y :: ys ∧
      pathParts (t ++ rest) = (t ++ y) :: ys.filter (· ≠ []) := by
  cases hs : rest.splitOnP isSep with
  | nil => exact absurd hs (splitOnP_ne_nil _ _)
  | cons y ys =>
    have hsplit : (t ++ rest).splitOnP isSep = (t ++ y) :: ys := by
      clear hne
      induction t with
      | nil => exact hs
      | cons b t ih =>
        obtain ⟨hb, ht⟩ := forall_mem_cons.1 ht
        rw [cons_append, splitOnP_cons_eq_if_modifyHead, if_neg (by simp [hb]), ih ht]
        rfl
    exact ⟨y, ys, rfl, by simp [pathParts, hsplit, hne]⟩

theorem pathParts_deviceDir (s : Bytes) :
    pathParts (deviceDir ++ s) = ascii "Device" :: pathParts s := by
  have hsplit := splitOnP_append_cons (ascii "\\Device") s (show isSep 92 = true from rfl)
  have hdir : deviceDir ++ s = ascii "\\Device" ++ 92 :: s := rfl
  rw [pathParts, hdir, hsplit, filter_append]
  rfl

theorem devices_names : ∀ x ∈ devices, x.1 ≠ [] ∧ ∀ b ∈ x.1, isSep b = false := by
  decide +kernel

theorem devices_inj : ∀ x ∈ devices, ∀ y ∈ devices, x.2 = y.2 → x = y := by decide

theorem names_iff {x : Bytes × Device} (hx : x ∈ devices) (rest : Bytes) :
    Names (pathParts (deviceDir ++ (x.1 ++ rest))) (x.2, toPosix rest) ↔
      (rest.splitOnP isSep).head? = some [] := by
  obtain ⟨hne, hsep⟩ := devices_names x hx
  obtain ⟨y, ys, hy, hparts⟩ := pathParts_append hne hsep rest
  rw [pathParts_deviceDir, hparts, toPosix_eq, pathParts, hy]
  constructor
  · rintro ⟨x', hx', rest', hparts', hv⟩
    obtain rfl := devices_inj x hx x' hx' (congrArg Prod.fst hv)
    simpa using congrArg (·.tail.head?) hparts'
  · rintro ⟨⟩
    exact ⟨x, hx, ys.filter (· ≠ []), by rw [append_nil], rfl⟩

theorem resolve_device {x : Bytes × Device} (hx : x ∈ devices) (rest : Bytes) :
    resolve (deviceDir ++ (x.1 ++ rest)) = some (some (x.2, toPosix rest)) := by
  rcases mem_pair.1 hx with rfl | rfl <;> rfl

theorem head_not_continuation {s : Bytes} (h : Utf8.valid s = true) :
    s.head?.any isContinuation = false := by
  cases s with
  | nil => rfl
  | cons b s =>
    rw [Utf8.valid, Utf8.run_cons, decide_eq_true_eq] at h
    obtain ⟨t, hstep, -⟩ := Option.bind_eq_some_iff.1 h
    simp only [head?_cons, Option.any_some, isContinuation, decide_eq_false_iff_not]
    rw [Utf8.step, Utf8.State.start] at hstep
    simp only [UInt8.le_iff_toNat_le, UInt8.lt_iff_toNat_lt, ← UInt8.toNat_inj,
      UInt8.reduceToNat] at hstep ⊢
    split_ifs at hstep <;> omega

theorem resolve_returns (w : Str) : resolve w.bytes ≠ none := by
  rw [resolve]
  split_ifs with hcolon
  · -- after a colon a character starts
    obtain ⟨hlen, hget⟩ := List.getElem?_eq_some_iff.1 hcolon
    have hw : w.bytes = w.bytes.take 1 ++ 58 :: w.bytes.drop 2 := by
      rw [← hget, getElem_cons_drop, take_append_drop]
    have hvalid := w.utf8
    rw [hw, Utf8.valid_append_ascii _ _ (by decide), Bool.and_eq_true] at hvalid
    rw [sliceFrom, if_neg (by rw [head_not_continuation hvalid.2]; nofun)]
    split <;> nofun
  all_goals split <;> nofun

/-- `resolve` goes by whole components if and only if nothing stands between the name of a device
and the next separator. -/
theorem byComponents_iff (w : Str) : ByComponents w ↔ ∀ x ∈ devices, ∀ rest,
    w.bytes = deviceDir ++ (x.1 ++ rest) → (rest.splitOnP isSep).head? = some [] := by
  constructor
  · rintro ⟨-, h⟩ x hx rest hw
    rw [hw] at h
    exact (names_iff hx rest).1 (h ⟨_, rfl⟩ _ (resolve_device hx rest))
  · intro h
    refine ⟨resolve_returns w, ?_⟩
    rintro ⟨s, hs⟩ v hv
    rw [← hs, resolve, if_neg (by rw [show (deviceDir ++ s)[1]? = some 68 from rfl]; decide)] at hv
    split at hv
    · next name dev hfind =>
      obtain ⟨rest, rfl⟩ : name <+: s := by simpa using find?_some hfind
      have hx := mem_of_find?_eq_some hfind
      rw [← append_assoc, drop_left] at hv
      cases hv
      exact hs ▸ (names_iff hx rest).2 (h _ hx rest hs.symm)
    · simp at hv

/-- A volume with a longer name, `\Device\HarddiskVolume10\x`, is taken for `/0/x` on the first. -/
theorem longer_name_resolves :
    resolve (ascii "\\Device\\HarddiskVolume10\\x") = some (some (.ext2, ascii "/0/x")) ∧
      ¬ ByComponents ⟨ascii "\\Device\\HarddiskVolume10\\x", by decide⟩ := by
  refine ⟨by decide, fun h => ?_⟩
  have hx : (ascii "HarddiskVolume1", Device.ext2) ∈ devices := by decide
  exact absurd ((names_iff hx (ascii "0\\x")).1 (h.2 ⟨_, rfl⟩ _ (resolve_device hx _))) (by decide)

end Thos.File
