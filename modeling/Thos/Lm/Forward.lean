import Thos.Lm.Model

/-!
# The forward pass

`Model::forward` and the operations of `math.rs` on a model that is loaded, with every slice and
index checked. What is computed with the numbers does not matter here, so the numbers and their
operations are parameters. Scratch vectors are written before they are read and start as zeros
wherever they are used; an index that is in range is below `2 ^ 64`.
-/

set_option autoImplicit false

namespace Thos.Lm

open Thos.Lib List Model Nat

/-- `f32` and the operations that `math.rs` and `forward` use. -/
structure Arith (F : Type) where
  ofBits : UInt32 → F
  ofNat : Nat → F
  (add sub mul div max : F → F → F)
  (sqrt exp tanh : F → F)
  (negInfinity geluC cubic half : F)

namespace Arith

variable {F : Type} (A : Arith F)

def zeros (n : Nat) : List F := List.replicate n (A.ofNat 0)

def sum (v : List F) : F := v.foldl A.add (A.ofNat 0)

/-- The scalar product of `linear` and `dot`, over the indices of the first vector. -/
def dot (a b : List F) : Checked TlmError F :=
  (List.range a.length).foldlM (fun acc i => do
      let x ← index a i
      let y ← index b i
      return A.add acc (A.mul x y))
    (A.ofNat 0)

/-- `linear`, for an output of `n` elements. -/
def linear (x w bias : List F) (n : Nat) : Checked TlmError (List F) :=
  (List.range n).mapM fun o => do
    let row ← range w (o * x.length) x.length
    let acc ← A.dot x row
    let b ← if bias.isEmpty then .ok (A.ofNat 0) else index bias o
    return A.add acc b

/-- `layernorm`, into the vector `out`. -/
def layernorm (v w b : List F) (eps : F) (out : List F) : Checked TlmError (List F) :=
  let n := A.ofNat v.length
  let mean := A.div (A.sum v) n
  let var := A.div (A.sum (v.map fun x => A.mul (A.sub x mean) (A.sub x mean))) n
  let inv := A.div (A.ofNat 1) (A.sqrt (A.add var eps))
  (List.range v.length).foldlM (fun out i => do
      let x ← index v i
      let wi ← index w i
      let bi ← index b i
      store out i (A.add (A.mul (A.mul (A.sub x mean) inv) wi) bi))
    out

def softmax (s : List F) : List F :=
  let m := s.foldl A.max A.negInfinity
  let e := s.map fun x => A.exp (A.sub x m)
  let inv := A.div (A.ofNat 1) (A.sum e)
  e.map fun x => A.mul x inv

def gelu (v : List F) : List F :=
  v.map fun x =>
    let x3 := A.mul (A.mul x x) x
    A.mul (A.mul A.half x) (A.add (A.ofNat 1) (A.tanh (A.mul A.geluC (A.add x (A.mul A.cubic x3)))))

end Arith

namespace Model

variable {F : Type} (A : Arith F) (m : Model)

/-- `self.s(start, len)`. -/
def s (start len : Nat) : Checked TlmError (List F) := range (m.w.map A.ofBits) start len

def embed (wte wpe : List F) (n : Nat) (tokens : List UInt16) : Checked TlmError (List F) :=
  let c := m.cfg.nEmbd
  (List.range n).foldlM (fun x t => do
      let tok ← index tokens t
      let e ← range wte (tok.toNat * c) c
      let p ← range wpe (t * c) c
      (List.range c).foldlM (fun x i => do
          let a ← index e i
          let b ← index p i
          store x (t * c + i) (A.add a b))
        x)
    (A.zeros (n * c))

/-- Queries, keys and values of all positions. -/
def qkv (ln1W ln1B qkvW qkvB : List F) (eps : F) (n : Nat) (x : List F) :
    Checked TlmError (List F × List F × List F) :=
  let c := m.cfg.nEmbd
  (List.range n).foldlM (fun (q, k, v) t => do
      let row ← range x (t * c) c
      let hbuf ← A.layernorm row ln1W ln1B eps (A.zeros c)
      let out ← A.linear hbuf qkvW qkvB (3 * c)
      let q' ← range out 0 c
      let k' ← range out c c
      let v' ← range out (2 * c) c
      let q ← copyFrom q (t * c) c q'
      let k ← copyFrom k (t * c) c k'
      let v ← copyFrom v (t * c) c v'
      return (q, k, v))
    (A.zeros (n * c), A.zeros (n * c), A.zeros (n * c))

/-- The attention of the head `hh` at the position `t`. -/
def head (scale : F) (n : Nat) (q k v : List F) (t hh : Nat) : Checked TlmError (List F) := do
  let c := m.cfg.nEmbd
  let hd := m.cfg.headDim
  let qh ← range q (t * c + hh * hd) hd
  let row ← range (A.zeros n) 0 (t + 1)
  let row ← (List.range (t + 1)).foldlM (fun row s => do
      let kh ← range k (s * c + hh * hd) hd
      let score ← A.dot qh kh
      store row s (A.mul score scale))
    row
  let row := A.softmax row
  (List.range (t + 1)).foldlM (fun dst s => do
      let vh ← range v (s * c + hh * hd) hd
      let p ← index row s
      (List.range hd).foldlM (fun dst d => do
          let old ← index dst d
          let y ← index vh d
          store dst d (A.add old (A.mul p y)))
        dst)
    (A.zeros hd)

/-- `x[t * c + i] += y[i]` for all `i`. -/
def accumulate (x : List F) (t : Nat) (y : List F) : Checked TlmError (List F) :=
  let c := m.cfg.nEmbd
  (List.range c).foldlM (fun x i => do
      let old ← index x (t * c + i)
      let d ← index y i
      store x (t * c + i) (A.add old d))
    x

/-- The attention of all positions, added to `x`. -/
def attend (projW projB : List F) (scale : F) (n : Nat) (q k v x : List F) :
    Checked TlmError (List F) :=
  let c := m.cfg.nEmbd
  let hd := m.cfg.headDim
  (List.range n).foldlM (fun x t => do
      let attOut ← (List.range m.cfg.nHead).foldlM (fun attOut hh => do
          let dst ← m.head A scale n q k v t hh
          copyFrom attOut (hh * hd) hd dst)
        (A.zeros c)
      let proj ← A.linear attOut projW projB c
      m.accumulate A x t proj)
    x

/-- The second half of a layer, added to `x`. -/
def mlp (ln2W ln2B fcW fcB mpW mpB : List F) (eps : F) (n : Nat) (x : List F) :
    Checked TlmError (List F) :=
  let c := m.cfg.nEmbd
  (List.range n).foldlM (fun x t => do
      let row ← range x (t * c) c
      let hbuf ← A.layernorm row ln2W ln2B eps (A.zeros c)
      let f1 ← A.linear hbuf fcW fcB (4 * c)
      let f2 ← A.linear (A.gelu f1) mpW mpB c
      m.accumulate A x t f2)
    x

def layer (scale eps : F) (n stride : Nat) (x : List F) (l : Nat) : Checked TlmError (List F) := do
  let c := m.cfg.nEmbd
  let base := m.lay.layer0 + l * stride
  let r := m.lref
  let ln1W ← m.s A (base + r.ln1W) c
  let ln1B ← m.s A (base + r.ln1B) c
  let qkvW ← m.s A (base + r.qkvW) (3 * c * c)
  let qkvB ← m.s A (base + r.qkvB) (3 * c)
  let projW ← m.s A (base + r.projW) (c * c)
  let projB ← m.s A (base + r.projB) c
  let ln2W ← m.s A (base + r.ln2W) c
  let ln2B ← m.s A (base + r.ln2B) c
  let fcW ← m.s A (base + r.fcW) (4 * c * c)
  let fcB ← m.s A (base + r.fcB) (4 * c)
  let mpW ← m.s A (base + r.mlpprojW) (4 * c * c)
  let mpB ← m.s A (base + r.mlpprojB) c
  let (q, k, v) ← m.qkv A ln1W ln1B qkvW qkvB eps n x
  let x ← m.attend A projW projB scale n q k v x
  m.mlp A ln2W ln2B fcW fcB mpW mpB eps n x

def forward (tokens : List UInt16) : Checked TlmError (List F) := do
  let c := m.cfg.nEmbd
  let hd := m.cfg.headDim
  let n := Nat.max (Nat.min tokens.length m.cfg.blockSize) 1
  let eps := A.ofBits m.cfg.normEps
  let scale := A.div (A.ofNat 1) (A.sqrt (A.ofNat hd))
  let wte ← m.s A 0 (m.cfg.vocabSize * c)
  let wpe ← m.s A m.lay.wpe (m.cfg.blockSize * c)
  let x ← m.embed A wte wpe n tokens
  let stride ← m.cfg.layerElems
  let x ← (List.range m.cfg.nLayer).foldlM (m.layer A scale eps n stride) x
  let lnfW ← m.s A m.lay.lnf c
  let lnfB ← m.s A (m.lay.lnf + c) c
  let last ← range x ((n - 1) * c) c
  let hbuf ← A.layernorm last lnfW lnfB eps (A.zeros c)
  A.linear hbuf wte [] m.cfg.vocabSize

end Model

/-! ## No fault -/

theorem row_end {t n : Nat} (ht : t < n) (c : Nat) : t * c + c ≤ n * c := by
  rw [← succ_mul]
  exact mul_le_mul_right c ht

theorem row_lt {t n c i : Nat} (ht : t < n) (hi : i < c) : t * c + i < n * c := by
  have := row_end ht c
  omega

theorem row_le {t n c o len : Nat} (ht : t < n) (ho : o + len ≤ c) : t * c + o + len ≤ n * c := by
  have := row_end ht c
  omega

namespace Arith

variable {F : Type} (A : Arith F)

@[simp] theorem length_zeros (n : Nat) : (A.zeros n).length = n := length_replicate

@[simp] theorem length_softmax (s : List F) : (A.softmax s).length = s.length := by
  simp [softmax]

@[simp] theorem length_gelu (v : List F) : (A.gelu v).length = v.length := by simp [gelu]

theorem dot_yields {a b : List F} (h : a.length ≤ b.length) : Yields (A.dot a b) fun _ => True := by
  refine yields_foldlM trivial fun acc i hi _ => ?_
  have hi := mem_range.1 hi
  refine (yields_index hi).bind fun x _ => ?_
  refine (yields_index (by omega)).bind fun y _ => ?_
  exact yields_pure trivial

theorem linear_yields {x w bias : List F} {n : Nat} (hw : n * x.length ≤ w.length)
    (hbias : bias = [] ∨ n ≤ bias.length) :
    Yields (A.linear x w bias n) fun out => out.length = n := by
  refine yields_mapM (P := fun _ => True) length_range fun o ho => ?_
  have ho := mem_range.1 ho
  have hrow := row_end ho x.length
  refine (yields_range (by omega)).bind fun row hrow => ?_
  refine (A.dot_yields (by omega)).bind fun acc _ => ?_
  -- Both branches go on to add what they read to the product.
  split
  · exact yields_pure trivial
  · next hne =>
      rcases hbias with rfl | hbias
      · exact absurd rfl hne
      · exact (yields_index (by omega)).bind fun b _ => yields_pure trivial

theorem layernorm_yields {v w b out : List F} (hw : v.length ≤ w.length)
    (hb : v.length ≤ b.length) (hout : v.length ≤ out.length) (eps : F) :
    Yields (A.layernorm v w b eps out) fun out' => out'.length = out.length := by
  refine yields_foldlM rfl fun out' i hi hlen => ?_
  have hi := mem_range.1 hi
  refine (yields_index hi).bind fun x _ => ?_
  refine (yields_index (by omega)).bind fun wi _ => ?_
  refine (yields_index (by omega)).bind fun bi _ => ?_
  exact (yields_store (by omega) _).mono fun _ hlen' => hlen'.trans hlen

end Arith

namespace Model

variable {F : Type} (A : Arith F) (m : Model) {n : Nat} {eps scale : F}

theorem embed_yields {wte wpe : List F} {tokens : List UInt16}
    (hwte : wte.length = m.cfg.vocabSize * m.cfg.nEmbd)
    (hwpe : wpe.length = m.cfg.blockSize * m.cfg.nEmbd) (hn : n ≤ tokens.length)
    (hblock : n ≤ m.cfg.blockSize) (htoks : ∀ t ∈ tokens, t.toNat < m.cfg.vocabSize) :
    Yields (m.embed A wte wpe n tokens) fun x => x.length = n * m.cfg.nEmbd := by
  refine yields_foldlM (A.length_zeros _) fun x t ht hx => ?_
  have ht := mem_range.1 ht
  refine (yields_index (by omega)).bind fun tok htok => ?_
  have hrow := row_end (htoks tok htok) m.cfg.nEmbd
  have hpos := row_end (lt_of_lt_of_le ht hblock) m.cfg.nEmbd
  refine (yields_range (by omega)).bind fun e he => ?_
  refine (yields_range (by omega)).bind fun p hp => ?_
  refine yields_foldlM hx fun x i hi hx => ?_
  have hi := mem_range.1 hi
  have hlt := row_lt ht hi
  refine (yields_index (by omega)).bind fun a _ => ?_
  refine (yields_index (by omega)).bind fun b _ => ?_
  exact (yields_store (by omega) _).mono fun _ hlen => hlen.trans hx

theorem qkv_yields {ln1W ln1B qkvW qkvB x : List F} (hx : x.length = n * m.cfg.nEmbd)
    (h₁ : ln1W.length = m.cfg.nEmbd) (h₂ : ln1B.length = m.cfg.nEmbd)
    (h₃ : qkvW.length = 3 * m.cfg.nEmbd * m.cfg.nEmbd) (h₄ : qkvB.length = 3 * m.cfg.nEmbd) :
    Yields (m.qkv A ln1W ln1B qkvW qkvB eps n x) fun out => out.1.length = n * m.cfg.nEmbd ∧
      out.2.1.length = n * m.cfg.nEmbd ∧ out.2.2.length = n * m.cfg.nEmbd := by
  refine yields_foldlM ⟨A.length_zeros _, A.length_zeros _, A.length_zeros _⟩ ?_
  rintro ⟨q, k, v⟩ t ht ⟨hq, hk, hv⟩
  dsimp only at hq hk hv
  have hrow := row_end (mem_range.1 ht) m.cfg.nEmbd
  refine (yields_range (by omega)).bind fun row hlen => ?_
  refine (A.layernorm_yields (by omega) (by omega) (by simp [hlen]) eps).bind fun hbuf hbuf' => ?_
  rw [A.length_zeros] at hbuf'
  refine (A.linear_yields (by rw [hbuf', h₃]) (.inr (by omega))).bind fun out hout => ?_
  refine (yields_range (by omega)).bind fun q' hq' => ?_
  refine (yields_range (by omega)).bind fun k' hk' => ?_
  refine (yields_range (by omega)).bind fun v' hv' => ?_
  refine (yields_copyFrom (by omega) hq').bind fun q hq'' => ?_
  refine (yields_copyFrom (by omega) hk').bind fun k hk'' => ?_
  refine (yields_copyFrom (by omega) hv').bind fun v hv'' => ?_
  exact yields_pure ⟨hq''.trans hq, hk''.trans hk, hv''.trans hv⟩

theorem head_part (hheads : m.cfg.nEmbd % m.cfg.nHead = 0) {hh : Nat} (hhh : hh < m.cfg.nHead) :
    hh * m.cfg.headDim + m.cfg.headDim ≤ m.cfg.nEmbd := by
  have hpart := row_end hhh m.cfg.headDim
  have hdiv : m.cfg.nHead * m.cfg.headDim = m.cfg.nEmbd :=
    Nat.mul_div_cancel' (Nat.dvd_of_mod_eq_zero hheads)
  omega

theorem head_yields (hheads : m.cfg.nEmbd % m.cfg.nHead = 0) {q k v : List F}
    (hq : q.length = n * m.cfg.nEmbd) (hk : k.length = n * m.cfg.nEmbd)
    (hv : v.length = n * m.cfg.nEmbd) {t hh : Nat} (ht : t < n) (hhh : hh < m.cfg.nHead) :
    Yields (m.head A scale n q k v t hh) fun dst => dst.length = m.cfg.headDim := by
  have hpart := m.head_part hheads hhh
  have hspan : ∀ s, s < n → s * m.cfg.nEmbd + hh * m.cfg.headDim + m.cfg.headDim ≤
      n * m.cfg.nEmbd := fun s hs => row_le hs hpart
  refine (yields_range (by have := hspan t ht; omega)).bind fun qh hqh => ?_
  refine (yields_range (by rw [A.length_zeros]; omega)).bind fun row hrow => ?_
  refine (yields_foldlM (P := fun row => row.length = t + 1) hrow fun row s hs hrow => ?_).bind
    fun row hrow => ?_
  · have hs := mem_range.1 hs
    refine (yields_range (by have := hspan s (by omega); omega)).bind fun kh hkh => ?_
    refine (A.dot_yields (by omega)).bind fun score _ => ?_
    exact (yields_store (by omega) _).mono fun _ hlen => hlen.trans hrow
  · refine yields_foldlM (A.length_zeros _) fun dst s hs hdst => ?_
    have hs := mem_range.1 hs
    refine (yields_range (by have := hspan s (by omega); omega)).bind fun vh hvh => ?_
    refine (yields_index (by rw [A.length_softmax]; omega)).bind fun p _ => ?_
    refine yields_foldlM hdst fun dst d hd hdst => ?_
    have hd := mem_range.1 hd
    refine (yields_index (by omega)).bind fun old _ => ?_
    refine (yields_index (by omega)).bind fun y _ => ?_
    exact (yields_store (by omega) _).mono fun _ hlen => hlen.trans hdst

theorem accumulate_yields {x y : List F} {t : Nat} (hx : x.length = n * m.cfg.nEmbd)
    (hy : y.length = m.cfg.nEmbd) (ht : t < n) :
    Yields (m.accumulate A x t y) fun x' => x'.length = n * m.cfg.nEmbd := by
  refine yields_foldlM hx fun x i hi hx => ?_
  have hi := mem_range.1 hi
  have hlt := row_lt ht hi
  refine (yields_index (by omega)).bind fun old _ => ?_
  refine (yields_index (by omega)).bind fun d _ => ?_
  exact (yields_store (by omega) _).mono fun _ hlen => hlen.trans hx

theorem attend_yields (hheads : m.cfg.nEmbd % m.cfg.nHead = 0) {projW projB q k v x : List F}
    (hW : projW.length = m.cfg.nEmbd * m.cfg.nEmbd) (hB : projB.length = m.cfg.nEmbd)
    (hq : q.length = n * m.cfg.nEmbd) (hk : k.length = n * m.cfg.nEmbd)
    (hv : v.length = n * m.cfg.nEmbd) (hx : x.length = n * m.cfg.nEmbd) :
    Yields (m.attend A projW projB scale n q k v x) fun x' => x'.length = n * m.cfg.nEmbd := by
  refine yields_foldlM hx fun x t ht hx => ?_
  have ht := mem_range.1 ht
  refine (yields_foldlM (P := fun out => out.length = m.cfg.nEmbd) (A.length_zeros _)
    fun out hh hhh hout => ?_).bind fun attOut hatt => ?_
  · have hhh := mem_range.1 hhh
    have hpart := m.head_part hheads hhh
    refine (m.head_yields A hheads hq hk hv ht hhh).bind fun dst hdst => ?_
    exact (yields_copyFrom (by omega) hdst).mono fun _ hlen => hlen.trans hout
  · refine (A.linear_yields (by rw [hatt, hW]) (.inr (by omega))).bind fun proj hproj => ?_
    exact m.accumulate_yields A hx hproj ht

theorem mlp_yields {ln2W ln2B fcW fcB mpW mpB x : List F} (hx : x.length = n * m.cfg.nEmbd)
    (h₁ : ln2W.length = m.cfg.nEmbd) (h₂ : ln2B.length = m.cfg.nEmbd)
    (h₃ : fcW.length = 4 * m.cfg.nEmbd * m.cfg.nEmbd) (h₄ : fcB.length = 4 * m.cfg.nEmbd)
    (h₅ : mpW.length = 4 * m.cfg.nEmbd * m.cfg.nEmbd) (h₆ : mpB.length = m.cfg.nEmbd) :
    Yields (m.mlp A ln2W ln2B fcW fcB mpW mpB eps n x) fun x' => x'.length = n * m.cfg.nEmbd := by
  refine yields_foldlM hx fun x t ht hx => ?_
  have ht := mem_range.1 ht
  have hrow := row_end ht m.cfg.nEmbd
  refine (yields_range (by omega)).bind fun row hlen => ?_
  refine (A.layernorm_yields (by omega) (by omega) (by simp [hlen]) eps).bind fun hbuf hbuf' => ?_
  rw [A.length_zeros] at hbuf'
  refine (A.linear_yields (by rw [hbuf', h₃]) (.inr (by omega))).bind fun f1 hf1 => ?_
  refine (A.linear_yields (by rw [A.length_gelu, hf1, h₅, mul_comm]) (.inr (by omega))).bind
    fun f2 hf2 => ?_
  exact m.accumulate_yields A hx hf2 ht

section Loaded

variable {m} {bytes : Bytes} (h : Loaded bytes m)
include h

theorem s_yields {key : Key} (hkey : key ∈ keysOf m.cfg.nLayer) :
    Yields (m.s A (m.lay.start m.lref (layerSize m.cfg.nEmbd) key) (m.cfg.len key))
      fun ws => ws.length = m.cfg.len key := by
  have hspan := ((tiles_keys m.cfg).span hkey).2
  rw [← h.lay, ← h.lref, ← h.size] at hspan
  exact yields_range (by rwa [length_map])

theorem layer_yields {x : List F} {l : Nat} (hx : x.length = n * m.cfg.nEmbd)
    (hl : l < m.cfg.nLayer) : Yields (m.layer A scale eps n (layerSize m.cfg.nEmbd) x l) fun x' =>
      x'.length = n * m.cfg.nEmbd := by
  have hheads : m.cfg.nEmbd % m.cfg.nHead = 0 := by
    have hgood := h.good
    simp only [Config.bad, not_or, not_not] at hgood
    exact hgood.2.2.2.2.2.1
  have hs : ∀ name, Yields (m.s A (m.lay.start m.lref (layerSize m.cfg.nEmbd) (.layer l name))
      (m.cfg.len (.layer l name))) fun ws => ws.length = m.cfg.len (.layer l name) := by
    intro name
    refine s_yields A h ?_
    have hname : name ∈ Tlm.layerNames := by cases name <;> decide
    simp only [keysOf, mem_append, mem_flatMap, mem_range]
    exact .inl (.inr ⟨l, hl, mem_map_of_mem hname⟩)
  refine (hs .ln1W).bind fun ln1W h₁ => ?_
  refine (hs .ln1B).bind fun ln1B h₂ => ?_
  refine (hs .qkvW).bind fun qkvW h₃ => ?_
  refine (hs .qkvB).bind fun qkvB h₄ => ?_
  refine (hs .projW).bind fun projW h₅ => ?_
  refine (hs .projB).bind fun projB h₆ => ?_
  refine (hs .ln2W).bind fun ln2W h₇ => ?_
  refine (hs .ln2B).bind fun ln2B h₈ => ?_
  refine (hs .fcW).bind fun fcW h₉ => ?_
  refine (hs .fcB).bind fun fcB h₁₀ => ?_
  refine (hs .mlpprojW).bind fun mpW h₁₁ => ?_
  refine (hs .mlpprojB).bind fun mpB h₁₂ => ?_
  refine (m.qkv_yields A hx h₁ h₂ h₃ h₄).bind fun qkv hqkv => ?_
  obtain ⟨q, k, v⟩ := qkv
  obtain ⟨hq, hk, hv⟩ := hqkv
  refine (m.attend_yields A hheads h₅ h₆ hq hk hv hx).bind fun x' hx' => ?_
  exact m.mlp_yields A hx' h₇ h₈ h₉ h₁₀ h₁₁ h₁₂

theorem forward_yields (hsize : 4 * m.cfg.size < 2 ^ 64) {tokens : List UInt16} (hne : tokens ≠ [])
    (hlen : tokens.length ≤ m.cfg.blockSize) (htoks : ∀ t ∈ tokens, t.toNat < m.cfg.vocabSize) :
    Yields (m.forward A tokens) fun logits => logits.length = m.cfg.vocabSize := by
  have hpos := Config.positive_of_not_bad h.good
  have hstride : m.cfg.layerElems = .ok (layerSize m.cfg.nEmbd) := by
    have := layerSize_le hpos
    rw [Config.layerElems_eq _ hpos.nEmbd, Usize.ofNat_of_lt (by omega)]
  have hone : 0 < tokens.length := length_pos_iff.2 hne
  have hn : Nat.max (Nat.min tokens.length m.cfg.blockSize) 1 = tokens.length := by
    rw [show Nat.min tokens.length m.cfg.blockSize = tokens.length from min_eq_left hlen]
    exact max_eq_left hone
  have hs : ∀ key ∈ [Key.wte, .wpe, .lnfW, .lnfB],
      Yields (m.s A (m.lay.start m.lref (layerSize m.cfg.nEmbd) key) (m.cfg.len key))
        fun ws => ws.length = m.cfg.len key := by
    intro key hkey
    refine s_yields A h ?_
    simp only [mem_cons, not_mem_nil, or_false] at hkey
    simp only [keysOf, mem_append, mem_cons, not_mem_nil, or_false]
    tauto
  rw [forward, hn]
  refine (hs .wte (by simp)).bind fun wte hwte => ?_
  refine (hs .wpe (by simp)).bind fun wpe hwpe => ?_
  refine (m.embed_yields A hwte hwpe (le_rfl) hlen htoks).bind fun x hx => ?_
  rw [hstride, ok_bind]
  refine (yields_foldlM (P := fun x => x.length = tokens.length * m.cfg.nEmbd) hx
    fun x l hl hx => layer_yields A h hx (mem_range.1 hl)).bind fun x hx => ?_
  refine (hs .lnfW (by simp)).bind fun lnfW hW => ?_
  have hB := hs .lnfB (by simp)
  rw [Layout.start, show m.lay.cfg = m.cfg by rw [h.lay]; rfl] at hB
  refine hB.bind fun lnfB hB => ?_
  have hrow := row_end (show tokens.length - 1 < tokens.length by omega) m.cfg.nEmbd
  refine (yields_range (by omega)).bind fun last hlast => ?_
  have hW : lnfW.length = m.cfg.nEmbd := hW
  have hB : lnfB.length = m.cfg.nEmbd := hB
  refine (A.layernorm_yields (by omega) (by omega) (by simp [hlast]) _).bind fun hbuf hbuf' => ?_
  rw [A.length_zeros] at hbuf'
  exact A.linear_yields (by rw [hbuf']; exact le_of_eq hwte.symm) (.inl rfl)

end Loaded

/-! ## Loading is safe -/

/-- `Model::load` returns, and what it loads can be used: `encode` gives ids of the vocabulary, and
`forward` takes every slice in range. -/
structure SafeLoad (bytes : Bytes) : Prop where
  returns : load bytes ≠ .error .fault
  encode : ∀ m, load bytes = .ok m →
    ∀ prompt, ∀ id ∈ m.tok.encode prompt, id.toNat < m.cfg.vocabSize
  forward : ∀ m, load bytes = .ok m → ∀ tokens : List UInt16, tokens ≠ [] →
    tokens.length ≤ m.cfg.blockSize → (∀ t ∈ tokens, t.toNat < m.cfg.vocabSize) →
    Yields (m.forward A tokens) fun logits => logits.length = m.cfg.vocabSize

/-- The sizes of a header that is well formed fit 64 bits. If all its tensors are there, the merges
use ids made before, and the ids that stand for themselves are in the vocabulary. -/
structure Usable (bytes : Bytes) : Prop where
  size : 4 * (configAt bytes).size < 18446744073709551616
  merges : Complete bytes → Tokenizer.Sound (blobMerges bytes)
  vocab : Complete bytes → ∀ x, Tokenizer.Stands (blobMerges bytes) x →
    x.toNat % 65536 < (configAt bytes).vocabSize

theorem load_of_parse_error {bytes : Bytes} {e : Stop TlmError}
    (h : Weights.parse bytes = .error e) : load bytes = .error e := by
  rw [load, h]
  rfl

theorem safeLoad_of_err {bytes : Bytes} {e : TlmError} (h : load bytes = .error (.err e)) :
    SafeLoad A bytes where
  returns := by simp [h]
  encode m hm := by simp [h] at hm
  forward m hm := by simp [h] at hm

theorem safeLoad_of_ok {bytes : Bytes} {m : Model} (h : load bytes = .ok m)
    (hheader : HeaderOk bytes) (hsize : 4 * (configAt bytes).size < 2 ^ 64)
    (hsound : Tokenizer.Sound (blobMerges bytes)) (hm : Loaded bytes m) :
    SafeLoad A bytes ↔ ∀ x, Tokenizer.Stands (blobMerges bytes) x →
      x.toNat % 65536 < (configAt bytes).vocabSize := by
  have henc := Tokenizer.encode_lt_iff (t := .built (blobMerges bytes)) hsound.earlier
    (length_blobMerges hheader) (configAt bytes).vocabSize
  refine Iff.trans ?_ henc
  rw [← hm.tok, ← hm.cfg]
  rw [← hm.cfg] at hsize
  constructor
  · intro hsafe
    exact hsafe.encode m h
  · intro henc
    refine ⟨by simp [h], fun m' hm' => ?_, fun m' hm' tokens hne hblock htoks => ?_⟩
    · obtain rfl : m = m' := by simpa [h] using hm'
      exact henc
    · obtain rfl : m = m' := by simpa [h] using hm'
      exact forward_yields A hm hsize hne hblock htoks

/-- Loading is safe on exactly the files that are malformed or usable. -/
theorem safeLoad_iff {F : Type} (A : Arith F) (bytes : Bytes) :
    SafeLoad A bytes ↔ (HeaderOk bytes → Usable bytes) := by
  by_cases hheader : HeaderOk bytes
  swap
  · obtain ⟨e, he⟩ := parse_of_not_headerOk hheader
    exact iff_of_true (safeLoad_of_err A (load_of_parse_error he)) fun h => absurd h hheader
  refine Iff.trans ?_ (forall_prop_of_true hheader).symm
  have hparse := parse_of_headerOk hheader
  by_cases hsize : 4 * (configAt bytes).size < 18446744073709551616
  swap
  · rw [if_neg hsize] at hparse
    exact iff_of_false (fun h => h.returns (load_of_parse_error hparse)) fun h => hsize h.size
  by_cases hcomplete : Complete bytes
  swap
  · rw [if_pos hsize, if_neg hcomplete] at hparse
    exact iff_of_true (safeLoad_of_err A (load_of_parse_error hparse))
      ⟨hsize, fun h => absurd h hcomplete, fun h => absurd h hcomplete⟩
  rcases load_of_complete hheader hsize hcomplete with ⟨hsound, m, hload, hm⟩ | ⟨hsound, hfault⟩
  · rw [safeLoad_of_ok A hload hheader hsize hsound hm]
    exact ⟨fun hstands => ⟨hsize, fun _ => hsound, fun _ => hstands⟩,
      fun husable => husable.vocab hcomplete⟩
  · exact iff_of_false (fun h => h.returns hfault) fun h => hsound (h.merges hcomplete)

/-- A complete file of one layer and one head with `n_embd = block_size = vocab_size = 1`, and with
one merge. -/
def tinyFile (a b : Nat) : Bytes :=
  magic ++ [1, 1, 1, 1, 1, 1, 0, 1, 0x3F800000, 12, 1, a, b].flatMap toLe32 ++
    List.replicate (4 * 29) 0

/-- A merge of the id 300, which nothing makes, is an index out of range. With a merge of two bytes
the file is loaded, and `encode` gives the id 98 for a vocabulary of one id. -/
theorem tinyFile_not_safe : load (tinyFile 300 0) = .error .fault ∧
      ∃ m, load (tinyFile 97 98) = .ok m ∧ m.cfg.vocabSize = 1 ∧ m.tok.encode [98] = [98] := by
  refine ⟨eq_of_faults (by decide +kernel), ?_⟩
  have hok : (load (tinyFile 97 98)).toOption.any fun m =>
      decide (m.cfg.vocabSize = 1 ∧ m.tok.encode [98] = [98]) := by decide +kernel
  cases hload : load (tinyFile 97 98) with
  | ok m =>
    rw [hload] at hok
    exact ⟨m, rfl, of_decide_eq_true hok⟩
  | error e =>
    cases hload ▸ hok

end Model

end Thos.Lm
