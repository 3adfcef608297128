import Thos.Lib.Buffer
import Thos.Lib.Checked
import Thos.Lib.Single
import Thos.Lib.Tile

/-!
# The weight container

A `.tlm` file is a header, the merges of the tokenizer and the tensors, all in 32-bit words.
`tlm.py` writes it, in the order of a list of names; `thos-lm/src/tlm.rs` reads it and finds the
tensors by offsets that it adds up.
-/

set_option autoImplicit false

namespace Thos.Lm

open Thos.Lib List Usize Nat

/-! ## Tensors -/

inductive LayerTensor
  | ln1W | ln1B | qkvW | qkvB | projW | projB | ln2W | ln2B | fcW | fcB | mlpprojW | mlpprojB
  deriving DecidableEq

/-- The names of all tensors. -/
inductive Key
  | wte
  | wpe
  | layer (li : Nat) (name : LayerTensor)
  | lnfW
  | lnfB
  deriving DecidableEq

def magic : Bytes := [0x54, 0x4C, 0x4D, 0x31]

def version : Nat := 1

def headerLen : Nat := 44

/-! ## The writer -/

namespace Tlm

/-- `Config` of `tlm.py`; `normEps` is the bits of a Python float. -/
structure Config where
  (nLayer nHead nEmbd blockSize vocabSize : Nat)
  normEps : UInt64
  tokenizerKind : Nat
  merges : Option (List (Nat × Nat))

/-- An array of 32-bit words. -/
structure Tensor where
  shape : List Nat
  data : List UInt32
  size : data.length = shape.prod

/-- `tobytes`. -/
def Tensor.bytes (t : Tensor) : Bytes := (t.data.map UInt32.toNat).flatMap toLe32

def layerShape (c : Nat) : LayerTensor → List Nat
  | .ln1W | .ln1B | .projB | .ln2W | .ln2B | .mlpprojB => [c]
  | .qkvW => [3 * c, c]
  | .qkvB => [3 * c]
  | .projW => [c, c]
  | .fcW => [4 * c, c]
  | .fcB => [4 * c]
  | .mlpprojW => [c, 4 * c]

/-- `_LAYER`. -/
def layerNames : List LayerTensor :=
  [.ln1W, .ln1B, .qkvW, .qkvB, .projW, .projB, .ln2W, .ln2B, .fcW, .fcB, .mlpprojW, .mlpprojB]

namespace Config

/-- The dictionary `shapes`. -/
def shapes (cfg : Config) : Key → Option (List Nat)
  | .wte => some [cfg.vocabSize, cfg.nEmbd]
  | .wpe => some [cfg.blockSize, cfg.nEmbd]
  | .layer li name => if li < cfg.nLayer then some (layerShape cfg.nEmbd name) else none
  | .lnfW | .lnfB => some [cfg.nEmbd]

def orderedKeys (cfg : Config) : List Key :=
  [.wte, .wpe] ++ (List.range cfg.nLayer).flatMap (fun li => layerNames.map (.layer li)) ++
    [.lnfW, .lnfB]

/-- `cfg.merges or []`. -/
def mergeList (cfg : Config) : List (Nat × Nat) := cfg.merges.getD []

end Config

/-- `struct.pack("<I", x)`; `none` is a `struct.error`. -/
def packI (x : Nat) : Option Bytes := if x < 4294967296 then some (toLe32 x) else none

/-- `struct.pack("<f", x)`; `none` is an `OverflowError`. -/
def packF (x : UInt64) : Option Bytes := (toSingle x.toNat).map toLe32

def tokBlob (cfg : Config) : Option Bytes :=
  if cfg.tokenizerKind ≠ 1 ∨ cfg.mergeList = [] then some []
  else do
    let out ← packI cfg.mergeList.length
    let rest ← cfg.mergeList.mapM fun (a, b) => do return (← packI a) ++ (← packI b)
    return out ++ rest.flatten

/-- The header of `write_tlm`. -/
def header (cfg : Config) (blob : Bytes) : Option Bytes := do
  return magic ++ (← packI version) ++ (← packI cfg.nLayer) ++ (← packI cfg.nHead) ++
    (← packI cfg.nEmbd) ++ (← packI cfg.blockSize) ++ (← packI cfg.vocabSize) ++ (← packI 1) ++
    (← packI cfg.tokenizerKind) ++ (← packF cfg.normEps) ++ (← packI blob.length)

/-- `write_tlm`; `none` is an exception: a field out of range, a tensor missing or of the wrong
shape. -/
def writeTlm (cfg : Config) (tensors : Key → Option Tensor) : Option Bytes := do
  let blob ← tokBlob cfg
  let hdr ← header cfg blob
  let body ← cfg.orderedKeys.mapM fun key => do
    let arr ← tensors key
    if cfg.shapes key = some arr.shape then some arr.bytes else none
  return hdr ++ blob ++ body.flatten

end Tlm

/-! ## The reader -/

inductive TlmError
  | tooShort
  | badMagic
  | badVersion
  | sizeMismatch
  | badConfig
  deriving DecidableEq

/-- `Config` of `tlm.rs`; `normEps` is the bits of an `f32`. -/
structure Config where
  (nLayer nHead nEmbd blockSize vocabSize : Nat)
  normEps : UInt32
  deriving DecidableEq

namespace Config

variable (cfg : Config)

def layerElems : Usize TlmError :=
  let c := ofNat cfg.nEmbd
  2 * c + (3 * c * c + 3 * c) + (c * c + c) + 2 * c + (4 * c * c + 4 * c) + (4 * c * c + c)

def totalElems : Usize TlmError :=
  let c := ofNat cfg.nEmbd
  .ofNat cfg.vocabSize * c + .ofNat cfg.blockSize * c + .ofNat cfg.nLayer * cfg.layerElems + 2 * c

def headDim : Nat := cfg.nEmbd / cfg.nHead

/-- `norm_eps.is_finite() && norm_eps > 0.0`, on the bits. -/
def epsOk : Bool :=
  decide (cfg.normEps.toNat / 8388608 % 256 ≠ 255 ∧ 0 < cfg.normEps.toNat ∧
    cfg.normEps.toNat < 2147483648)

/-- The test for `BadConfig`. -/
def bad : Prop :=
  cfg.nLayer = 0 ∨ cfg.nHead = 0 ∨ cfg.nEmbd = 0 ∨ cfg.blockSize = 0 ∨ cfg.vocabSize = 0 ∨
    cfg.nEmbd % cfg.nHead ≠ 0 ∨ cfg.epsOk = false

instance (cfg : Config) : Decidable cfg.bad := inferInstanceAs (Decidable (_ ∨ _))

end Config

def rdU32 (b : Bytes) (o : Nat) : Checked TlmError Nat :=
  if o + 4 ≤ b.length then .ok (le32 b o) else .error .fault

structure Weights where
  cfg : Config
  data : List UInt32
  tokKind : Nat
  merges : List (UInt32 × UInt32)
  deriving DecidableEq

namespace Weights

variable (bytes : Bytes)

/-- The fields of the header. -/
def readConfig : Checked TlmError Config := do
  let nLayer ← rdU32 bytes 8
  let nHead ← rdU32 bytes 12
  let nEmbd ← rdU32 bytes 16
  let blockSize ← rdU32 bytes 20
  let vocabSize ← rdU32 bytes 24
  let normEps ← rdU32 bytes 36
  return ⟨nLayer, nHead, nEmbd, blockSize, vocabSize, normEps.toUInt32⟩

/-- The tokenizer blob. -/
def readMerges (tokBytes : Nat) : Checked TlmError (List (UInt32 × UInt32)) :=
  if 4 ≤ tokBytes then do
    let n ← rdU32 bytes headerLen
    let need ← (4 + .ofNat n * 8 : Usize TlmError)
    if tokBytes < need then .error (.err .sizeMismatch)
    else (List.range n).mapM fun k => do
      let o ← (.ofNat headerLen + 4 + .ofNat k * 8 : Usize TlmError)
      let a ← rdU32 bytes o
      let b ← rdU32 bytes (o + 4)
      return (a.toUInt32, b.toUInt32)
  else .ok []

/-- The tensors. -/
def readData (cfg : Config) (tokBytes : Nat) : Checked TlmError (List UInt32) := do
  let want ← cfg.totalElems
  let start ← (.ofNat headerLen + .ofNat tokBytes : Usize TlmError)
  let body ← range bytes start (bytes.length - start)
  let need ← (.ofNat want * 4 : Usize TlmError)
  if body.length < need then .error (.err .sizeMismatch)
  else (List.range want).mapM fun i => do
    let o ← (.ofNat i * 4 : Usize TlmError)
    let word ← rdU32 body o
    return word.toUInt32

def parse : Checked TlmError Weights :=
  if bytes.length < headerLen then .error (.err .tooShort)
  else if slice bytes 0 4 ≠ magic then .error (.err .badMagic)
  else do
    let v ← rdU32 bytes 4
    if v ≠ version then .error (.err .badVersion)
    else do
      let cfg ← readConfig bytes
      if cfg.bad then .error (.err .badConfig)
      else do
        let kind ← rdU32 bytes 32
        let tokBytes ← rdU32 bytes 40
        let least ← (.ofNat headerLen + .ofNat tokBytes : Usize TlmError)
        if bytes.length < least then .error (.err .sizeMismatch)
        else do
          let merges ← readMerges bytes tokBytes
          let data ← readData bytes cfg tokBytes
          return ⟨cfg, data, kind % 256, merges⟩

end Weights

open Weights

/-! ## The layout -/

structure Layout where
  cfg : Config
  (wpe layer0 lnf : Nat)

def Layout.new (cfg : Config) : Checked TlmError Layout := do
  let c := ofNat cfg.nEmbd
  let wpe ← (.ofNat cfg.vocabSize * c : Usize TlmError)
  let layer0 ← (.ofNat wpe + .ofNat cfg.blockSize * c : Usize TlmError)
  let lnf ← (.ofNat layer0 + .ofNat cfg.nLayer * cfg.layerElems : Usize TlmError)
  return ⟨cfg, wpe, layer0, lnf⟩

/-- Offsets in a layer. -/
structure LayerRef where
  (ln1W ln1B qkvW qkvB projW projB ln2W ln2B fcW fcB mlpprojW mlpprojB : Nat)

/-- `LayerRef::new`: `o` is where the next tensor starts. -/
def LayerRef.new (n : Nat) : Checked TlmError LayerRef := do
  let c := ofNat n
  let take (o : Nat) (size : Usize TlmError) : Usize TlmError := .ofNat o + size
  let ln1W := 0
  let ln1B ← take ln1W c
  let qkvW ← take ln1B c
  let qkvB ← take qkvW (3 * c * c)
  let projW ← take qkvB (3 * c)
  let projB ← take projW (c * c)
  let ln2W ← take projB c
  let ln2B ← take ln2W c
  let fcW ← take ln2B c
  let fcB ← take fcW (4 * c * c)
  let mlpprojW ← take fcB (4 * c)
  let mlpprojB ← take mlpprojW (4 * c * c)
  let _ ← take mlpprojB c
  return ⟨ln1W, ln1B, qkvW, qkvB, projW, projB, ln2W, ln2B, fcW, fcB, mlpprojW, mlpprojB⟩

/-! ## Sizes -/

/-- The elements of a layer for `n_embd = c`. -/
def layerSize (c : Nat) : Nat :=
  2 * c + (3 * c * c + 3 * c) + (c * c + c) + 2 * c + (4 * c * c + 4 * c) + (4 * c * c + c)

/-- The elements of all tensors. -/
def Config.size (cfg : Config) : Nat :=
  cfg.vocabSize * cfg.nEmbd + cfg.blockSize * cfg.nEmbd + cfg.nLayer * layerSize cfg.nEmbd +
    2 * cfg.nEmbd

theorem layerSize_pos {c : Nat} (hc : 0 < c) : 0 < layerSize c := by
  unfold layerSize
  omega

theorem Config.layerElems_eq (cfg : Config) (hc : 0 < cfg.nEmbd) :
    cfg.layerElems = .ofNat (layerSize cfg.nEmbd) := by
  show ofNat 2 * .ofNat _ + (.ofNat 3 * .ofNat _ * .ofNat _ + .ofNat 3 * .ofNat _) +
    (.ofNat _ * .ofNat _ + .ofNat _) + .ofNat 2 * .ofNat _ +
    (.ofNat 4 * .ofNat _ * .ofNat _ + .ofNat 4 * .ofNat _) +
    (.ofNat 4 * .ofNat _ * .ofNat _ + .ofNat _) = _
  simp (disch := omega) only [ofNat_mul, ofNat_add, layerSize]

/-- The sizes that pass the test for `BadConfig`. -/
structure Config.Positive (cfg : Config) : Prop where
  nLayer : 0 < cfg.nLayer
  nEmbd : 0 < cfg.nEmbd
  blockSize : 0 < cfg.blockSize
  vocabSize : 0 < cfg.vocabSize

variable {cfg : Config}

theorem Config.positive_of_not_bad (h : ¬ cfg.bad) : cfg.Positive := by
  simp only [Config.bad, not_or] at h
  exact ⟨by omega, by omega, by omega, by omega⟩

theorem layerSize_le (h : cfg.Positive) : layerSize cfg.nEmbd ≤ cfg.size := by
  have hle := Nat.le_mul_of_pos_left (layerSize cfg.nEmbd) h.nLayer
  rw [Config.size]
  omega

theorem Config.totalElems_eq (h : cfg.Positive) : cfg.totalElems = .ofNat cfg.size := by
  have hlayer := layerSize_pos h.nEmbd
  obtain ⟨h₁, h₂, h₃, h₄⟩ := h
  show .ofNat _ * .ofNat _ + .ofNat _ * .ofNat _ + .ofNat _ * cfg.layerElems +
    .ofNat 2 * .ofNat _ = _
  rw [cfg.layerElems_eq h₂]
  simp (disch := omega) only [ofNat_mul, ofNat_add, Config.size]

/-! ## What the reader returns -/

def configAt (bytes : Bytes) : Config :=
  ⟨le32 bytes 8, le32 bytes 12, le32 bytes 16, le32 bytes 20, le32 bytes 24,
    (le32 bytes 36).toUInt32⟩

def mergesAt (bytes : Bytes) (n : Nat) : List (UInt32 × UInt32) :=
  (List.range n).map fun k =>
    ((le32 bytes (48 + 8 * k)).toUInt32, (le32 bytes (52 + 8 * k)).toUInt32)

def dataAt (bytes : Bytes) (start n : Nat) : List UInt32 :=
  (List.range n).map fun i => (le32 bytes (start + 4 * i)).toUInt32

section Parse

variable {bytes : Bytes} {tokBytes : Nat}

theorem rdU32_of_le {o : Nat} (h : o + 4 ≤ bytes.length) : rdU32 bytes o = .ok (le32 bytes o) :=
  if_pos h

theorem readConfig_eq (h : 44 ≤ bytes.length) : readConfig bytes = .ok (configAt bytes) := by
  simp (disch := omega) only [readConfig, rdU32_of_le]
  rfl

theorem readMerges_eq (h : 44 + tokBytes ≤ bytes.length) : readMerges bytes tokBytes =
      if 4 ≤ tokBytes then if tokBytes < 4 + 8 * le32 bytes 44 then .error (.err .sizeMismatch)
        else .ok (mergesAt bytes (le32 bytes 44)) else .ok [] := by
  rw [readMerges]
  split
  · next htok =>
      have hlt := le32_lt bytes 44
      have hneed : (4 + ofNat (le32 bytes 44) * 8 : Usize TlmError) =
          .ok (4 + 8 * le32 bytes 44) := by
        show ofNat 4 + .ofNat _ * .ofNat 8 = _
        rw [ofNat_mul_of_lt (by omega) (by omega), ofNat_add, ofNat_of_lt (by omega), mul_comm]
      rw [headerLen, rdU32_of_le (by omega), ok_bind, hneed, ok_bind]
      split
      · rfl
      · refine mapM_pure_of fun k hk => ?_
        rw [mem_range] at hk
        have ho : (ofNat 44 + 4 + ofNat k * 8 : Usize TlmError) = .ok (48 + 8 * k) := by
          show ofNat 44 + .ofNat 4 + .ofNat _ * .ofNat 8 = _
          rw [ofNat_mul_of_lt (by omega) (by omega), ofNat_add, ofNat_add,
            ofNat_of_lt (by omega), mul_comm]
        rw [ho, ok_bind, rdU32_of_le (by omega), rdU32_of_le (by omega), ok_bind, ok_bind,
          show 48 + 8 * k + 4 = 52 + 8 * k by omega]
  · rfl

theorem readData_eq {cfg : Config} (hcfg : cfg.Positive) (h : 44 + tokBytes ≤ bytes.length)
    (htok : tokBytes < 4294967296) :
    readData bytes cfg tokBytes = if 4 * cfg.size < 18446744073709551616 then
        if bytes.length < 44 + tokBytes + 4 * cfg.size then .error (.err .sizeMismatch)
        else .ok (dataAt bytes (44 + tokBytes) cfg.size) else .error .fault := by
  have hstart : (ofNat headerLen + ofNat tokBytes : Usize TlmError) = .ok (44 + tokBytes) := by
    rw [ofNat_add, headerLen, ofNat_of_lt (by omega)]
  have hbody : (range bytes (44 + tokBytes) (bytes.length - (44 + tokBytes)) :
      Checked TlmError Bytes) =
      .ok (slice bytes (44 + tokBytes) (bytes.length - (44 + tokBytes))) := range_of_le (by omega)
  have hlen : (slice bytes (44 + tokBytes) (bytes.length - (44 + tokBytes))).length =
      bytes.length - (44 + tokBytes) := length_slice (by omega)
  rw [readData, cfg.totalElems_eq hcfg]
  rcases lt_or_ge cfg.size 18446744073709551616 with hsize | hsize
  · have hneed : (ofNat cfg.size * 4 : Usize TlmError) = .ofNat (4 * cfg.size) := by
      show ofNat _ * .ofNat 4 = _
      rw [ofNat_mul_of_lt hsize (by omega), mul_comm]
    rw [ofNat_of_lt hsize, ok_bind, hstart, ok_bind, hbody, ok_bind, hneed]
    split
    · next hfit =>
        rw [ofNat_of_lt hfit, ok_bind, hlen]
        rcases lt_or_ge (bytes.length - (44 + tokBytes)) (4 * cfg.size) with hshort | hlong
        · rw [if_pos hshort, if_pos (by omega)]
        · rw [if_neg (by omega), if_neg (by omega)]
          refine mapM_pure_of fun i hi => ?_
          rw [mem_range] at hi
          have ho : (ofNat i * 4 : Usize TlmError) = .ok (4 * i) := by
            show ofNat _ * .ofNat 4 = _
            rw [ofNat_mul_of_lt (by omega) (by omega), ofNat_of_lt (by omega), mul_comm]
          rw [ho, ok_bind, rdU32_of_le (by omega), ok_bind, le32_slice (by omega)]
    · next hfit =>
        rw [ofNat_of_ge (by omega)]
        rfl
  · rw [ofNat_of_ge hsize, if_neg (by omega)]
    rfl

theorem parse_eq (bytes : Bytes) : parse bytes = if bytes.length < 44 then .error (.err .tooShort)
      else if slice bytes 0 4 ≠ magic then .error (.err .badMagic)
      else if le32 bytes 4 ≠ 1 then .error (.err .badVersion)
      else if (configAt bytes).bad then .error (.err .badConfig)
      else if bytes.length < 44 + le32 bytes 40 then .error (.err .sizeMismatch) else do
        let merges ← readMerges bytes (le32 bytes 40)
        let data ← readData bytes (configAt bytes) (le32 bytes 40)
        return ⟨configAt bytes, data, le32 bytes 32 % 256, merges⟩ := by
  rw [parse, headerLen]
  split
  · rfl
  · next hlen =>
      have hlt := le32_lt bytes 40
      split
      · rfl
      · rw [rdU32_of_le (by omega), ok_bind, version]
        split
        · rfl
        · rw [readConfig_eq (by omega), ok_bind]
          split
          · rfl
          · rw [rdU32_of_le (by omega), rdU32_of_le (by omega), ok_bind, ok_bind, ofNat_add,
              ofNat_of_lt (by omega), ok_bind]

end Parse

/-! ## Where the tensors are -/

def LayerRef.offset (r : LayerRef) : LayerTensor → Nat
  | .ln1W => r.ln1W
  | .ln1B => r.ln1B
  | .qkvW => r.qkvW
  | .qkvB => r.qkvB
  | .projW => r.projW
  | .projB => r.projB
  | .ln2W => r.ln2W
  | .ln2B => r.ln2B
  | .fcW => r.fcW
  | .fcB => r.fcB
  | .mlpprojW => r.mlpprojW
  | .mlpprojB => r.mlpprojB

/-- The first element of a tensor, as `forward` computes it. -/
def Layout.start (lay : Layout) (r : LayerRef) (stride : Nat) : Key → Nat
  | .wte => 0
  | .wpe => lay.wpe
  | .layer l name => lay.layer0 + l * stride + r.offset name
  | .lnfW => lay.lnf
  | .lnfB => lay.lnf + lay.cfg.nEmbd

/-- The number of elements that `forward` takes. -/
def Config.len (cfg : Config) : Key → Nat
  | .wte => cfg.vocabSize * cfg.nEmbd
  | .wpe => cfg.blockSize * cfg.nEmbd
  | .layer _ name =>
    let c := cfg.nEmbd
    match name with
    | .ln1W | .ln1B | .projB | .ln2W | .ln2B | .mlpprojB => c
    | .qkvW => 3 * c * c
    | .qkvB => 3 * c
    | .projW => c * c
    | .fcW | .mlpprojW => 4 * c * c
    | .fcB => 4 * c
  | .lnfW | .lnfB => cfg.nEmbd

/-- The tensors of a model with `n` layers, in the order of the file. -/
def keysOf (n : Nat) : List Key :=
  [.wte, .wpe] ++ (List.range n).flatMap (fun li => Tlm.layerNames.map (.layer li)) ++
    [.lnfW, .lnfB]

/-- The offsets that `Layout::new` and `LayerRef::new` give. -/
def layoutOf (cfg : Config) : Layout :=
  ⟨cfg, cfg.vocabSize * cfg.nEmbd, cfg.vocabSize * cfg.nEmbd + cfg.blockSize * cfg.nEmbd,
    cfg.vocabSize * cfg.nEmbd + cfg.blockSize * cfg.nEmbd + cfg.nLayer * layerSize cfg.nEmbd⟩

def layerRefOf (c : Nat) : LayerRef :=
  ⟨0, c, c + c, c + c + 3 * c * c, c + c + 3 * c * c + 3 * c, c + c + 3 * c * c + 3 * c + c * c,
    c + c + 3 * c * c + 3 * c + c * c + c, c + c + 3 * c * c + 3 * c + c * c + c + c,
    c + c + 3 * c * c + 3 * c + c * c + c + c + c,
    c + c + 3 * c * c + 3 * c + c * c + c + c + c + 4 * c * c,
    c + c + 3 * c * c + 3 * c + c * c + c + c + c + 4 * c * c + 4 * c,
    c + c + 3 * c * c + 3 * c + c * c + c + c + c + 4 * c * c + 4 * c + 4 * c * c⟩

theorem layout_new_eq (h : cfg.Positive) (hsize : cfg.size < 2 ^ 64) :
    Layout.new cfg = .ok (layoutOf cfg) := by
  have hlayer := layerSize_pos h.nEmbd
  obtain ⟨h₁, h₂, h₃, h₄⟩ := h
  rw [Config.size] at hsize
  rw [Layout.new, cfg.layerElems_eq h₂]
  simp (disch := omega) only [ofNat_mul, ofNat_add]
  rw [ofNat_of_lt (by omega), ok_bind, ofNat_of_lt (by omega), ok_bind,
    ofNat_of_lt (by omega), ok_bind]
  rfl

theorem layerRef_new_eq {c : Nat} (hc : 0 < c) (hsize : layerSize c < 2 ^ 64) :
    LayerRef.new c = .ok (layerRefOf c) := by
  unfold layerSize at hsize
  have h3 : (3 * ofNat c * ofNat c : Usize TlmError) = .ofNat (3 * c * c) := by
    show ofNat 3 * _ * _ = _
    rw [ofNat_mul (a := 3) (by omega) hc, ofNat_mul (a := 3 * c) (by omega) hc]
  have h3' : (3 * ofNat c : Usize TlmError) = .ofNat (3 * c) := ofNat_mul (a := 3) (by omega) hc
  have h4 : (4 * ofNat c * ofNat c : Usize TlmError) = .ofNat (4 * c * c) := by
    show ofNat 4 * _ * _ = _
    rw [ofNat_mul (a := 4) (by omega) hc, ofNat_mul (a := 4 * c) (by omega) hc]
  have h4' : (4 * ofNat c : Usize TlmError) = .ofNat (4 * c) := ofNat_mul (a := 4) (by omega) hc
  rw [LayerRef.new]
  simp only [h3, h4]
  simp only [h3', h4', ofNat_mul hc hc, ofNat_add, zero_add]
  simp (disch := omega) only [ofNat_of_lt, ok_bind]
  rfl

theorem tiles_layer (cfg : Config) (l : Nat) :
    Tiles ((layoutOf cfg).start (layerRefOf cfg.nEmbd) (layerSize cfg.nEmbd)) cfg.len
      (Tlm.layerNames.map (.layer l)) ((layoutOf cfg).layer0 + l * layerSize cfg.nEmbd)
      ((layoutOf cfg).layer0 + l * layerSize cfg.nEmbd + layerSize cfg.nEmbd) := by
  simp only [Tlm.layerNames, map_cons, map_nil, Tiles, Layout.start, LayerRef.offset,
    layerRefOf, Config.len, add_assoc, add_zero, true_and]
  rw [layerSize]
  omega

theorem tiles_keys (cfg : Config) :
    Tiles ((layoutOf cfg).start (layerRefOf cfg.nEmbd) (layerSize cfg.nEmbd)) cfg.len
      (keysOf cfg.nLayer) 0 cfg.size := by
  refine Tiles.append (b := (layoutOf cfg).lnf) (Tiles.append (b := (layoutOf cfg).layer0) ?_
    (Tiles.flatMap_range (tiles_layer cfg) cfg.nLayer)) ?_
  · simp [Tiles, Layout.start, layoutOf, Config.len]
  · refine ⟨rfl, rfl, ?_⟩
    show _ + cfg.nEmbd + cfg.nEmbd = cfg.size
    rw [Config.size]
    simp only [layoutOf]
    omega

/-! ## The words of the file -/

namespace Tlm

/-- The configurations that can be written and are accepted, with tensors of the right shapes. -/
structure Writable (cfg : Config) (tensors : Key → Option Tensor) : Prop where
  nLayer : 0 < cfg.nLayer ∧ cfg.nLayer < 4294967296
  nHead : 0 < cfg.nHead ∧ cfg.nHead < 4294967296
  nEmbd : 0 < cfg.nEmbd ∧ cfg.nEmbd < 4294967296
  blockSize : 0 < cfg.blockSize ∧ cfg.blockSize < 4294967296
  vocabSize : 0 < cfg.vocabSize ∧ cfg.vocabSize < 4294967296
  heads : cfg.nEmbd % cfg.nHead = 0
  normEps : ∃ eps, toSingle cfg.normEps.toNat = some eps ∧ 0 < eps ∧ eps < 2139095040
  kind : (cfg.tokenizerKind = 1 ∧ cfg.mergeList ≠ []) ∨ (cfg.tokenizerKind = 0 ∧ cfg.mergeList = [])
  ids : ∀ m ∈ cfg.mergeList, m.1 < 4294967296 ∧ m.2 < 4294967296
  blob : 4 + 8 * cfg.mergeList.length < 4294967296
  size : 4 * (cfg.vocabSize * cfg.nEmbd + cfg.blockSize * cfg.nEmbd +
    cfg.nLayer * layerSize cfg.nEmbd + 2 * cfg.nEmbd) < 18446744073709551616
  tensors : ∀ key shape, cfg.shapes key = some shape → ∃ t, tensors key = some t ∧ t.shape = shape

variable (cfg : Config)

def Config.read (eps : Nat) : Thos.Lm.Config :=
  ⟨cfg.nLayer, cfg.nHead, cfg.nEmbd, cfg.blockSize, cfg.vocabSize, eps.toUInt32⟩

/-- The words of a tensor. -/
def dataOf (tensors : Key → Option Tensor) (key : Key) : List UInt32 :=
  ((tensors key).map Tensor.data).getD []

def pairWords (merges : List (Nat × Nat)) : List Nat := merges.flatMap fun m => [m.1, m.2]

def blobWords : List Nat :=
  if cfg.mergeList = [] then [] else cfg.mergeList.length :: pairWords cfg.mergeList

def headerWords (eps : Nat) : List Nat :=
  [1, cfg.nLayer, cfg.nHead, cfg.nEmbd, cfg.blockSize, cfg.vocabSize, 1, cfg.tokenizerKind, eps,
    4 * (blobWords cfg).length]

def tensorWords (tensors : Key → Option Tensor) : List Nat :=
  (cfg.orderedKeys.flatMap (dataOf tensors)).map UInt32.toNat

/-- The file that `write_tlm` writes. -/
def fileOf (eps : Nat) (tensors : Key → Option Tensor) : Bytes :=
  magic ++ (headerWords cfg eps).flatMap toLe32 ++ (blobWords cfg).flatMap toLe32 ++
    (tensorWords cfg tensors).flatMap toLe32

theorem length_pairWords (merges : List (Nat × Nat)) :
    (pairWords merges).length = 2 * merges.length := by
  induction merges with
  | nil => rfl
  | cons m merges ih =>
    rw [pairWords, flatMap_cons, length_append, ← pairWords, ih]
    simp only [length_cons, length_nil]
    omega

theorem length_blobWords (cfg : Config) :
    (blobWords cfg).length ≤ 1 + 2 * cfg.mergeList.length := by
  rw [blobWords]
  split
  · simp
  · rw [length_cons, length_pairWords]
    omega

theorem packI_of_lt {x : Nat} (h : x < 2 ^ 32) : packI x = some (toLe32 x) := if_pos h

section

variable {cfg : Config} {tensors : Key → Option Tensor} (h : Writable cfg tensors)
include h

theorem tokBlob_eq : tokBlob cfg = some ((blobWords cfg).flatMap toLe32) := by
  have hblob := h.blob
  rw [tokBlob, blobWords]
  rcases h.kind with ⟨hkind, hne⟩ | ⟨hkind, hnil⟩
  · rw [if_neg (by simp [hkind, hne]), if_neg hne, packI_of_lt (by omega)]
    have hmap : cfg.mergeList.mapM (fun (a, b) => do return (← packI a) ++ (← packI b)) =
        some (cfg.mergeList.map fun m => toLe32 m.1 ++ toLe32 m.2) := by
      refine mapM_pure_of fun m hm => ?_
      have hids := h.ids m hm
      show (do return (← packI m.1) ++ (← packI m.2)) = _
      rw [packI_of_lt hids.1, packI_of_lt hids.2]
      rfl
    rw [hmap, flatMap_cons, pairWords, flatMap_assoc]
    simp [flatMap_def]
  · rw [if_pos (by simp [hnil]), if_pos hnil]
    rfl

variable {eps : Nat}

theorem header_eq (heps : toSingle cfg.normEps.toNat = some eps) :
    header cfg ((blobWords cfg).flatMap toLe32) =
      some (magic ++ (headerWords cfg eps).flatMap toLe32) := by
  have hblob := h.blob
  have hlen := length_blobWords cfg
  have hkind : cfg.tokenizerKind < 2 ^ 32 := by
    rcases h.kind with ⟨hkind, -⟩ | ⟨hkind, -⟩ <;> omega
  rw [header, length_flatMap_toLe32, packI_of_lt (by decide), packI_of_lt h.nLayer.2,
    packI_of_lt h.nHead.2, packI_of_lt h.nEmbd.2, packI_of_lt h.blockSize.2,
    packI_of_lt h.vocabSize.2, packI_of_lt (by decide), packI_of_lt hkind, packF, heps,
    packI_of_lt (by omega)]
  simp [headerWords, version]

variable {key : Key}

omit h in
theorem prod_shape {shape : List Nat} (h : cfg.shapes key = some shape) (eps : Nat) :
    shape.prod = (cfg.read eps).len key := by
  cases key with
  | wte | wpe | lnfW | lnfB =>
    cases h
    simp [Config.len, Config.read]
  | layer li name =>
    obtain ⟨-, ⟨⟩⟩ := Option.ite_none_right_eq_some.1 h
    cases name <;> simp [layerShape, Config.len, Config.read, mul_assoc, mul_left_comm]

omit h in
theorem shapes_of_mem (h : key ∈ cfg.orderedKeys) : ∃ shape, cfg.shapes key = some shape := by
  cases key with
  | wte | wpe | lnfW | lnfB => exact ⟨_, rfl⟩
  | layer li name =>
    simp only [Config.orderedKeys, mem_append, mem_cons, mem_flatMap,
      mem_range, mem_map, Key.layer.injEq, reduceCtorEq, not_mem_nil, or_false, false_or] at h
    obtain ⟨li', hli, name', -, rfl, -⟩ := h
    exact ⟨_, if_pos hli⟩

omit h in
theorem mem_of_shapes {shape : List Nat} (h : cfg.shapes key = some shape) :
    key ∈ cfg.orderedKeys := by
  cases key with
  | wte | wpe | lnfW | lnfB => simp [Config.orderedKeys]
  | layer li name =>
    obtain ⟨hli, -⟩ := Option.ite_none_right_eq_some.1 h
    cases name <;> simp [Config.orderedKeys, layerNames, hli]

theorem length_dataOf (eps : Nat) (hkey : key ∈ cfg.orderedKeys) :
    (dataOf tensors key).length = (cfg.read eps).len key := by
  obtain ⟨shape, hshape⟩ := shapes_of_mem hkey
  obtain ⟨t, ht, rfl⟩ := h.tensors key shape hshape
  rw [dataOf, ht, Option.map_some, Option.getD_some, t.size, prod_shape hshape eps]

theorem writeTlm_eq (heps : toSingle cfg.normEps.toNat = some eps) :
    writeTlm cfg tensors = some (fileOf cfg eps tensors) := by
  have hbody : (cfg.orderedKeys.mapM fun key => do
      let arr ← tensors key
      if cfg.shapes key = some arr.shape then some arr.bytes else none) =
      some (cfg.orderedKeys.map fun key =>
        ((dataOf tensors key).map UInt32.toNat).flatMap toLe32) := by
    refine mapM_pure_of fun key hkey => ?_
    obtain ⟨shape, hshape⟩ := shapes_of_mem hkey
    obtain ⟨t, ht, rfl⟩ := h.tensors key shape hshape
    rw [ht, dataOf, ht]
    exact if_pos hshape
  rw [writeTlm, hbody, tokBlob_eq h, Option.bind_eq_bind, Option.bind_some, header_eq h heps,
    Option.bind_eq_bind, Option.bind_some, Option.bind_some, fileOf, tensorWords,
    map_flatMap, flatMap_assoc, ← flatMap_def]
  rfl

/-! ## Reading the words back -/

theorem headerWords_lt (heps : eps < 2139095040) : ∀ x ∈ headerWords cfg eps, x < 2 ^ 32 := by
  have hblob := h.blob
  have hlen := length_blobWords cfg
  have hkind : cfg.tokenizerKind ≤ 1 := by rcases h.kind with ⟨hkind, -⟩ | ⟨hkind, -⟩ <;> omega
  obtain ⟨⟨-, h₁⟩, ⟨-, h₂⟩, ⟨-, h₃⟩, ⟨-, h₄⟩, ⟨-, h₅⟩⟩ :=
    And.intro h.nLayer (And.intro h.nHead (And.intro h.nEmbd (And.intro h.blockSize h.vocabSize)))
  simp only [headerWords, mem_cons, not_mem_nil, or_false]
  rintro x (rfl | rfl | rfl | rfl | rfl | rfl | rfl | rfl | rfl | rfl) <;> omega

theorem blobWords_lt : ∀ x ∈ blobWords cfg, x < 2 ^ 32 := by
  have hblob := h.blob
  intro x hx
  rw [blobWords] at hx
  split at hx
  · cases hx
  · rcases mem_cons.1 hx with rfl | hx
    · omega
    · obtain ⟨m, hm, hx⟩ := mem_flatMap.1 hx
      have hids := h.ids m hm
      simp only [mem_cons, not_mem_nil, or_false] at hx
      rcases hx with rfl | rfl
      · exact hids.1
      · exact hids.2

omit h in
theorem length_fileOf (eps : Nat) : (fileOf cfg eps tensors).length =
      44 + 4 * (blobWords cfg).length + 4 * (tensorWords cfg tensors).length := by
  simp only [fileOf, length_append, length_flatMap_toLe32]
  rfl

variable {k : Nat}

theorem le32_header (heps : eps < 2139095040) (hk : k < 10) :
    le32 (fileOf cfg eps tensors) (4 + 4 * k) = (headerWords cfg eps)[k] := by
  rw [fileOf, append_assoc, append_assoc]
  exact le32_words magic _ (headerWords_lt h heps) hk

theorem le32_blob (eps : Nat) {x : Nat}
    (hx : (blobWords cfg)[k]? = some x) : le32 (fileOf cfg eps tensors) (44 + 4 * k) = x := by
  obtain ⟨hk, rfl⟩ := List.getElem?_eq_some_iff.1 hx
  rw [fileOf, append_assoc]
  exact le32_words (magic ++ (headerWords cfg eps).flatMap toLe32) _ (blobWords_lt h) hk

omit h in
theorem le32_tensor (eps : Nat) (hk : k < (tensorWords cfg tensors).length) :
    le32 (fileOf cfg eps tensors) (44 + 4 * (blobWords cfg).length + 4 * k) =
      (tensorWords cfg tensors)[k] := by
  have hlt : ∀ x ∈ tensorWords cfg tensors, x < 2 ^ 32 := by
    intro x hx
    obtain ⟨w, -, rfl⟩ := mem_map.1 hx
    exact w.toNat_lt
  have hread := le32_words (magic ++ (headerWords cfg eps).flatMap toLe32 ++
    (blobWords cfg).flatMap toLe32) [] hlt hk
  rwa [append_nil, length_append, length_flatMap_toLe32 (blobWords cfg)] at hread

theorem configAt_fileOf (heps : eps < 2139095040) :
    configAt (fileOf cfg eps tensors) = cfg.read eps := by
  rw [configAt, le32_header h heps (k := 1) (by decide), le32_header h heps (k := 2) (by decide),
    le32_header h heps (k := 3) (by decide), le32_header h heps (k := 4) (by decide),
    le32_header h heps (k := 5) (by decide), le32_header h heps (k := 8) (by decide)]
  rfl

omit h in
theorem getElem_pairWords (merges : List (Nat × Nat)) (hk : k < merges.length) :
    (pairWords merges)[2 * k]? = some merges[k].1 ∧
      (pairWords merges)[2 * k + 1]? = some merges[k].2 := by
  induction merges generalizing k with
  | nil => cases hk
  | cons m merges ih =>
    cases k with
    | zero => exact ⟨rfl, rfl⟩
    | succ k => exact ih (by simpa using hk)

/-- The merges as the reader has them. -/
def mergeWords (cfg : Config) : List (UInt32 × UInt32) :=
  cfg.mergeList.map fun m => (m.1.toUInt32, m.2.toUInt32)

theorem readMerges_fileOf (eps : Nat) :
    readMerges (fileOf cfg eps tensors) (4 * (blobWords cfg).length) = .ok (mergeWords cfg) := by
  have hlen := @length_fileOf cfg tensors eps
  rw [readMerges_eq (by omega)]
  by_cases hnil : cfg.mergeList = []
  · rw [blobWords, if_pos hnil, mergeWords, hnil]
    rfl
  · have hwords : blobWords cfg = cfg.mergeList.length :: pairWords cfg.mergeList := if_neg hnil
    have hcount : (blobWords cfg).length = 1 + 2 * cfg.mergeList.length := by
      rw [hwords, length_cons, length_pairWords]
      omega
    have hn : le32 (fileOf cfg eps tensors) 44 = cfg.mergeList.length :=
      le32_blob h eps (k := 0) (by rw [hwords]; rfl)
    rw [hn, if_pos (by omega), if_neg (by omega), mergesAt, mergeWords]
    congr 1
    refine ext_getElem (by simp) fun k hk _ => ?_
    rw [length_map, length_range] at hk
    obtain ⟨hfst, hsnd⟩ := getElem_pairWords cfg.mergeList hk
    rw [getElem_map, getElem_map, getElem_range, show 48 + 8 * k = 44 + 4 * (2 * k + 1) by omega,
      show 52 + 8 * k = 44 + 4 * (2 * k + 1 + 1) by omega,
      le32_blob h eps (by rw [hwords, getElem?_cons_succ, hfst]),
      le32_blob h eps (by rw [hwords, getElem?_cons_succ, hsnd])]

theorem readData_fileOf (hbad : ¬ (cfg.read eps).bad) :
    readData (fileOf cfg eps tensors) (cfg.read eps) (4 * (blobWords cfg).length) =
      .ok (cfg.orderedKeys.flatMap (dataOf tensors)) := by
  have hblob := h.blob
  have hwords := length_blobWords cfg
  have hlen := @length_fileOf cfg tensors eps
  have hsize : (tensorWords cfg tensors).length = (cfg.read eps).size := by
    have htiles : 0 + (cfg.orderedKeys.flatMap (dataOf tensors)).length = (cfg.read eps).size :=
      (tiles_keys (cfg.read eps)).length_flatMap fun key hkey => length_dataOf h eps hkey
    rw [tensorWords, length_map]
    omega
  have hfit : 4 * (cfg.read eps).size < 18446744073709551616 := h.size
  rw [readData_eq (Config.positive_of_not_bad hbad) (by omega) (by omega), if_pos hfit,
    if_neg (by omega), dataAt]
  congr 1
  refine ext_getElem (by rw [← hsize, tensorWords]; simp) fun k hk _ => ?_
  rw [length_map, length_range, ← hsize] at hk
  rw [getElem_map, getElem_range, le32_tensor eps hk]
  simp [tensorWords]

theorem not_bad_read (h0 : 0 < eps) (hlt : eps < 2139095040) : ¬ (cfg.read eps).bad := by
  have heps : (cfg.read eps).normEps.toNat = eps := by
    show (toUInt32 eps).toNat = eps
    rw [toUInt32_eq, UInt32.toNat_ofNat', mod_eq_of_lt (by omega)]
  have hok : (cfg.read eps).epsOk = true := by
    rw [Config.epsOk, heps]
    exact decide_eq_true ⟨by omega, h0, by omega⟩
  rintro (hbad | hbad | hbad | hbad | hbad | hbad | hbad)
  · exact ne_of_gt h.nLayer.1 hbad
  · exact ne_of_gt h.nHead.1 hbad
  · exact ne_of_gt h.nEmbd.1 hbad
  · exact ne_of_gt h.blockSize.1 hbad
  · exact ne_of_gt h.vocabSize.1 hbad
  · exact hbad h.heads
  · cases hok ▸ hbad

theorem parse_fileOf (h0 : 0 < eps) (hlt : eps < 2139095040) : parse (fileOf cfg eps tensors) =
      .ok ⟨cfg.read eps, cfg.orderedKeys.flatMap (dataOf tensors), cfg.tokenizerKind,
        mergeWords cfg⟩ := by
  have hbad := not_bad_read h h0 hlt
  have hlen := @length_fileOf cfg tensors eps
  have hmagic : slice (fileOf cfg eps tensors) 0 4 = magic := by
    rw [fileOf, append_assoc, append_assoc]
    rfl
  have hversion : le32 (fileOf cfg eps tensors) 4 = 1 := le32_header h hlt (k := 0) (by decide)
  have hkind : le32 (fileOf cfg eps tensors) 32 = cfg.tokenizerKind :=
    le32_header h hlt (k := 7) (by decide)
  have htok : le32 (fileOf cfg eps tensors) 40 = 4 * (blobWords cfg).length :=
    le32_header h hlt (k := 9) (by decide)
  have hkind' : cfg.tokenizerKind % 256 = cfg.tokenizerKind := by
    rcases h.kind with ⟨hkind, -⟩ | ⟨hkind, -⟩ <;> rw [hkind]
  rw [parse_eq, if_neg (by omega), if_neg (by simp [hmagic]), if_neg (by simp [hversion]),
    configAt_fileOf h hlt, if_neg hbad, htok, if_neg (by omega), readMerges_fileOf h eps,
    readData_fileOf h hbad, ok_bind, ok_bind, hkind, hkind']
  rfl

/-- What the reader gives back of what was written. -/
structure GivesBack (cfg : Config) (tensors : Key → Option Tensor) (w : Weights) : Prop where
  nLayer : w.cfg.nLayer = cfg.nLayer
  nHead : w.cfg.nHead = cfg.nHead
  nEmbd : w.cfg.nEmbd = cfg.nEmbd
  blockSize : w.cfg.blockSize = cfg.blockSize
  vocabSize : w.cfg.vocabSize = cfg.vocabSize
  /-- The header holds `norm_eps` as a single. -/
  normEps : toSingle cfg.normEps.toNat = some w.cfg.normEps.toNat
  /-- So a `norm_eps` that is a single comes back as it was. -/
  normEpsExact : ∀ u, 0 < u → u < 2139095040 → cfg.normEps.toNat = toDouble u →
    w.cfg.normEps.toNat = u
  tokKind : w.tokKind = cfg.tokenizerKind
  merges : w.merges.map (fun m => (m.1.toNat, m.2.toNat)) = cfg.mergeList
  total : w.cfg.totalElems = .ok w.data.length
  /-- Every tensor is where the offsets of the reader say. -/
  tensors : ∃ lay r stride, Layout.new w.cfg = .ok lay ∧ LayerRef.new w.cfg.nEmbd = .ok r ∧
    w.cfg.layerElems = .ok stride ∧
    (∀ key shape, cfg.shapes key = some shape → ∃ t, tensors key = some t ∧ t.shape = shape ∧
      range w.data (lay.start r stride key) (w.cfg.len key) = (.ok t.data : Checked TlmError _)) ∧
    Tiles (lay.start r stride) w.cfg.len cfg.orderedKeys 0 w.data.length

omit h in
/-- Writing a file and reading it gives back the configuration, the merges and every tensor, and the
tensors tile the weights. -/
theorem parse_writeTlm (cfg : Config) (tensors : Key → Option Tensor) (h : Writable cfg tensors) :
    ∃ file w, writeTlm cfg tensors = some file ∧ parse file = .ok w ∧ GivesBack cfg tensors w := by
  obtain ⟨eps, heps, h0, hlt⟩ := h.normEps
  refine ⟨_, _, writeTlm_eq h heps, parse_fileOf h h0 hlt, ?_⟩
  have heps' : (toUInt32 eps).toNat = eps := by
    rw [toUInt32_eq, UInt32.toNat_ofNat', mod_eq_of_lt (by omega)]
  have hpos := Config.positive_of_not_bad (not_bad_read h h0 hlt)
  have htiles := tiles_keys (cfg.read eps)
  have hlen : 0 + (cfg.orderedKeys.flatMap (dataOf tensors)).length = (cfg.read eps).size :=
    htiles.length_flatMap fun key hkey => length_dataOf h eps hkey
  have hfit : 4 * (cfg.read eps).size < 18446744073709551616 := h.size
  rw [zero_add] at hlen
  refine ⟨rfl, rfl, rfl, rfl, rfl, heps.trans (congrArg some heps'.symm), ?_, rfl, ?_, ?_, ?_⟩
  · intro u hu hu' hdouble
    rw [hdouble, toSingle_toDouble hu hu'] at heps
    exact heps'.trans (Option.some.inj heps).symm
  · rw [mergeWords, map_map]
    refine (map_congr_left fun m hm => ?_).trans (map_id _)
    have hids := h.ids m hm
    simp only [Function.comp_apply, toUInt32_eq, UInt32.toNat_ofNat']
    rw [mod_eq_of_lt hids.1, mod_eq_of_lt hids.2]
    rfl
  · rw [hlen, Config.totalElems_eq hpos, ofNat_of_lt (by omega)]
  · have hlayer := layerSize_le hpos
    have hsize : (cfg.read eps).size < 18446744073709551616 := by omega
    have hstride : layerSize (cfg.read eps).nEmbd < 18446744073709551616 := by omega
    refine ⟨_, _, _, layout_new_eq hpos hsize, layerRef_new_eq hpos.nEmbd hstride,
      (Config.layerElems_eq _ hpos.nEmbd).trans (ofNat_of_lt hstride), ?_, ?_⟩
    · intro key shape hshape
      obtain ⟨t, ht, hs⟩ := h.tensors key shape hshape
      have hkey := mem_of_shapes hshape
      have hdata : dataOf tensors key = t.data := by rw [dataOf, ht]; rfl
      refine ⟨t, ht, hs, ?_⟩
      rw [range_of_le (by rw [hlen]; exact (htiles.span hkey).2), ← hdata]
      congr 1
      exact htiles.slice (fun k hk => length_dataOf h eps hk)
        (show ([] : List UInt32).length = 0 from rfl) hkey
    · rw [hlen]
      exact htiles

end

/-- A model of one layer with one merge; `norm_eps` is 1.0. -/
def tinyConfig : Config := ⟨1, 1, 2, 1, 257, 0x3FF0000000000000, 1, some [(97, 98)]⟩

def tinyTensors (key : Key) : Option Tensor :=
  (tinyConfig.shapes key).map fun shape =>
    ⟨shape, List.replicate shape.prod 7, length_replicate⟩

theorem tiny_writable : Writable tinyConfig tinyTensors where
  nLayer := by decide
  nHead := by decide
  nEmbd := by decide
  blockSize := by decide
  vocabSize := by decide
  heads := by decide
  normEps := ⟨0x3F800000, by decide +kernel, by decide, by decide⟩
  kind := .inl ⟨rfl, by decide⟩
  ids := by decide
  blob := by decide
  size := by decide
  tensors key shape h := ⟨⟨shape, List.replicate shape.prod 7, length_replicate⟩, by
    rw [tinyTensors, h]
    rfl, rfl⟩

theorem parse_writeTlm_tiny :
    ∃ file w, writeTlm tinyConfig tinyTensors = some file ∧ parse file = .ok w ∧
      GivesBack tinyConfig tinyTensors w :=
  parse_writeTlm tinyConfig tinyTensors tiny_writable

end Tlm

end Thos.Lm
