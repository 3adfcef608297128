import Thos.Ext2.Tree

/-!
# Freeing and laying out the blocks of a file

`free_all_blocks` gives back exactly the blocks that an inode owns, one after the other.
`lay_out_data` takes blocks that nobody had, fills them with the data, and hangs them into
a tree that owns exactly those blocks.
-/

set_option autoImplicit false

namespace Thos.Ext2

open Thos.Lib Function List Vol Meets Nat

variable {fs : Ext2} {L : Layout fs} {v : Vol}

/-! ## Freeing -/

/-- The volume with several blocks given back. -/
@[simps] def Vol.dropBlocks (v : Vol) (bs : List Nat) : Vol :=
  { v with used := v.used \ bs.toFinset, synced := bs.isEmpty && v.synced }

theorem Vol.dropBlocks_singleton (v : Vol) (b : Nat) : v.dropBlocks [b] = v.dropBlock b := by
  simp [dropBlocks, dropBlock, Finset.sdiff_singleton_eq_erase]

theorem Vol.dropBlocks_append (v : Vol) (bs bs' : List Nat) :
    v.dropBlocks (bs ++ bs') = (v.dropBlocks bs).dropBlocks bs' := by
  cases bs <;> simp [dropBlocks, sdiff_sdiff]

variable {bs : List Nat} {n : Nat}

theorem Vol.mem_used_dropBlocks {v : Vol} : n ∈ (v.dropBlocks bs).used ↔ n ∈ v.used ∧ n ∉ bs := by
  simp

/-- The program gives back the blocks `bs`, in this order, on every volume with the data
of `v`. -/
def Frees (L : Layout fs) (v : Vol) (p : M Unit) (bs : List Nat) : Prop :=
  ∀ w : Vol, w.data = v.data → bs.Nodup → (∀ b ∈ bs, L.Data b ∧ b ∈ w.used) →
    ∀ {Q : Unit → Vol → Prop} {E : Stop → Vol → Prop} {C : Vol → Prop},
      (∀ bs', bs' <+: bs → C (w.dropBlocks bs')) → Q () (w.dropBlocks bs) → L.Meets w p Q E C

theorem Frees.skip : Frees L v (pure ()) [] := fun w _ _ _ _ _ _ _ hQ =>
  pure (by simpa [dropBlocks] using hQ)

theorem Frees.freeBlock (b : Nat) : Frees L v (fs.freeBlock b) [b] := by
  intro w _ _ hb Q E C hC hQ
  obtain ⟨hdata, hused⟩ := hb b mem_cons_self
  have hbefore := hC [] nil_prefix
  have hafter := hC [b] (prefix_refl _)
  rw [dropBlocks_singleton] at hafter hQ
  exact meets_freeBlock hdata hused (by simpa [dropBlocks] using hbefore) hQ hafter

theorem Frees.seq {p q : M Unit} {bs' : List Nat} (hp : Frees L v p bs) (hq : Frees L v q bs') :
    Frees L v (do p; q) (bs ++ bs') := by
  intro w hw hnodup hb Q E C hC hQ
  obtain ⟨hn, hn', hdisj⟩ := nodup_append.1 hnodup
  refine bind (hp w hw hn (fun b h => hb b (mem_append_left _ h))
    (fun l hl => hC l (hl.trans (prefix_append ..))) ?_)
  refine hq (w.dropBlocks bs) hw hn' (fun b h => ?_) (fun l hl => ?_) ?_
  · obtain ⟨hdata, hused⟩ := hb b (mem_append_right _ h)
    exact ⟨hdata, mem_used_dropBlocks.2 ⟨hused, fun h' => hdisj b h' b h rfl⟩⟩
  · rw [← dropBlocks_append]
    exact hC _ ((prefix_append_right_inj bs).2 hl)
  · rwa [← dropBlocks_append]

theorem Frees.when {c : Bool} {p : M Unit} (h : c = true → Frees L v p bs) :
    Frees L v (.when c p) (if c then bs else []) := by
  cases c with
  | true => exact h rfl
  | false => exact Frees.skip

variable {b : Nat}

theorem Frees.read {f : Bytes → M Unit} (hmem : b ∈ bs) (h : Frees L v (f (v.data b)) bs) :
    Frees L v (do let c ← fs.block b; f c) bs := by
  intro w hw hnodup hb Q E C hC hQ
  refine Meets.read (fun d hd => hd.glimpse.block (hb b hmem).1) ?_
  rw [hw]
  exact h w hw hnodup hb hC hQ

theorem frees_freeBlocks (bs : List Nat) : Frees L v (fs.freeBlocks bs) (bs.filter (· ≠ 0)) := by
  induction bs with
  | nil => exact Frees.skip
  | cons b bs ih =>
    have h := (Frees.when (c := decide (b ≠ 0)) fun _ => Frees.freeBlock (L := L) (v := v) b).seq ih
    rw [freeBlocks]
    convert h using 1
    by_cases hb : b = 0 <;> simp [hb]

theorem frees_freeIndirects (bns : List Nat) :
    Frees L v (fs.freeIndirects bns) (bns.flatMap v.branch) := by
  induction bns with
  | nil => exact Frees.skip
  | cons b bns ih =>
    have hread : decide (b ≠ 0) = true → Frees L v (do
        let c ← fs.block b
        fs.freeBlocks (ptrs c)
        fs.freeBlock b) ((ptrs (v.data b)).filter (· ≠ 0) ++ [b]) := fun _ =>
      Frees.read (mem_append_right _ mem_cons_self) ((frees_freeBlocks _).seq (Frees.freeBlock b))
    have h := (Frees.when hread).seq ih
    rw [freeIndirects]
    convert h using 1
    by_cases hb : b = 0 <;> simp [hb, branch]

theorem frees_freeAllBlocks (node : Inode) :
    Frees L v (fs.freeAllBlocks node) (v.owned node.block) := by
  have hread : decide (node.block 13 ≠ 0) = true → Frees L v (do
      let c ← fs.block (node.block 13)
      fs.freeIndirects (ptrs c)
      fs.freeBlock (node.block 13)) ((ptrs (v.data (node.block 13))).flatMap v.branch ++
        [node.block 13]) :=
    fun _ => Frees.read (mem_append_right _ mem_cons_self)
      ((frees_freeIndirects _).seq (Frees.freeBlock _))
  have h := (frees_freeBlocks (L := L) (v := v) ((List.range 12).map node.block)).seq
    ((frees_freeIndirects [node.block 12]).seq (Frees.when hread))
  rw [freeAllBlocks]
  convert h using 1
  rw [Vol.owned, Vol.tail, directs]
  by_cases hb : node.block 13 = 0 <;> simp [hb, Vol.branches]

/-! ## Growing -/

/-- `v'` is `v` with the new blocks taken and filled. -/
structure Grown (L : Layout fs) (v : Vol) (new : List Nat) (v' : Vol) : Prop where
  nodup : new.Nodup
  data : ∀ b ∈ new, L.Data b
  fresh : ∀ b ∈ new, b ∉ v.used
  used : v'.used = v.used ∪ new.toFinset
  keep : ∀ n, n ∉ new → v'.data n = v.data n
  inodes : v'.inodes = v.inodes
  dirs : v'.dirs = v.dirs
  inode : v'.inode = v.inode

variable {v₀ v' : Vol} {new : List Nat}

theorem Grown.refl (L : Layout fs) (v : Vol) : Grown L v [] v :=
  ⟨nodup_nil, nofun, nofun, by simp, fun _ _ => rfl, rfl, rfl, rfl⟩

variable (h : Grown L v new v')
include h

theorem Grown.mem_used : n ∈ v'.used ↔ n ∈ v.used ∨ n ∈ new := by
  rw [h.used, Finset.mem_union, mem_toFinset]

theorem Grown.perm {new' : List Nat} (hp : new.Perm new') : Grown L v new' v' where
  __ := h
  nodup := hp.nodup_iff.1 h.nodup
  data b hb := h.data b (hp.mem_iff.2 hb)
  fresh b hb := h.fresh b (hp.mem_iff.2 hb)
  used := by rw [h.used, toFinset_eq_of_perm _ _ hp]
  keep n hn := h.keep n fun hn' => hn (hp.mem_iff.1 hn')

theorem Grown.addBlock (hn : L.Data n) (hfree : n ∉ v'.used) (x : Bytes) :
    Grown L v (new ++ [n]) (v'.addBlock n x) := by
  rw [h.mem_used, not_or] at hfree
  refine ⟨?_, ?_, ?_, ?_, fun m hm => ?_, h.inodes, h.dirs, h.inode⟩
  · exact nodup_append_comm.2 (nodup_cons.2 ⟨hfree.2, h.nodup⟩)
  · exact forall_mem_append.2 ⟨h.data, forall_mem_singleton.2 hn⟩
  · exact forall_mem_append.2 ⟨h.fresh, forall_mem_singleton.2 hfree.1⟩
  · ext m
    simp only [addBlock_used, Finset.mem_insert, h.mem_used, Finset.mem_union, mem_toFinset,
      mem_append, mem_singleton]
    tauto
  · rw [mem_append, not_or, mem_singleton] at hm
    rw [addBlock_data, update_of_ne hm.2, h.keep m hm.1]

theorem Grown.putData (hn : n ∈ new) (x : Bytes) : Grown L v new (v'.putData n x) := by
  refine ⟨h.nodup, h.data, h.fresh, h.used, fun m hm => ?_, h.inodes, h.dirs, h.inode⟩
  rw [putData_data, update_of_ne (by rintro rfl; exact hm hn), h.keep m hm]

omit h

/-- What was there stays. -/
def Later (v v' : Vol) : Prop := v.used ⊆ v'.used ∧ ∀ b ∈ v.used, v'.data b = v.data b

theorem Later.refl (v : Vol) : Later v v := ⟨fun _ h => h, fun _ _ => rfl⟩

theorem Later.trans {v₁ v₂ v₃ : Vol} (h : Later v₁ v₂) (h' : Later v₂ v₃) : Later v₁ v₃ :=
  ⟨h.1.trans h'.1, fun b hb => (h'.2 b (h.1 hb)).trans (h.2 b hb)⟩

theorem later_addBlock (hfree : n ∉ v.used) (x : Bytes) : Later v (v.addBlock n x) := by
  refine ⟨Finset.subset_insert .., fun b hb => ?_⟩
  rw [addBlock_data, update_of_ne]
  rintro rfl
  exact hfree hb

variable {w : Vol}

theorem later_putData (h : Later v w) (hn : n ∉ v.used) (x : Bytes) : Later v (w.putData n x) := by
  refine ⟨h.1, fun b hb => ?_⟩
  rw [putData_data, update_of_ne, h.2 b hb]
  rintro rfl
  exact hn hb

theorem Grown.later (h : Grown L v new v') : Later v v' := by
  refine ⟨fun n hn => h.mem_used.2 (.inl hn), fun b hb => h.keep b fun hnew => h.fresh b hnew hb⟩

theorem length_chunk (data : Bytes) (i : Nat) : (fs.chunk data i).length = fs.blockSize := by
  have : (slice data (i * fs.blockSize) fs.blockSize).length ≤ fs.blockSize := by
    rw [slice, length_take]
    omega
  rw [chunk, length_append, length_replicate]
  omega

/-! ## Blocks of pointers -/

theorem Layout.Data.lt (hn : L.Data n) : n < 2 ^ 32 := by
  have := hn.2.1
  have := L.blockCount_lt
  omega

theorem length_ptrBlock (L : Layout fs) (h : bs.length ≤ fs.per) :
    (fs.ptrBlock bs).length = fs.blockSize := by
  have := four_mul_per L
  rw [ptrBlock, length_append, length_flatMap_toLe32, length_replicate]
  omega

@[simp] theorem Vol.branch_zero (v : Vol) : v.branch 0 = [] := if_pos rfl

@[simp] theorem Vol.branches_zero (v : Vol) : v.branches 0 = [] := if_pos rfl

theorem mem_of_getD_ne {bs : List Nat} {k : Nat} (h : bs.getD k 0 ≠ 0) : bs.getD k 0 ∈ bs := by
  by_cases hk : k < bs.length
  · rw [getD_eq_getElem _ _ hk]
    exact getElem_mem hk
  · exact absurd (getD_eq_default _ _ (by omega)) h

theorem map_range_getD {f : Nat → Nat} {bs : List Nat} {n : Nat} (hlen : bs.length ≤ n)
    (hf : ∀ i, i < n → f i = bs.getD i 0) :
    (List.range n).map f = bs ++ List.replicate (n - bs.length) 0 := by
  refine ext_getElem (by simp; omega) fun i hi _ => ?_
  rw [getElem_map, getElem_range, hf i (by simpa using hi)]
  by_cases hlt : i < bs.length
  · rw [getD_eq_getElem _ _ hlt, getElem_append_left hlt]
  · rw [getD_eq_default _ _ (by omega), getElem_append_right (by omega), getElem_replicate]

section

variable (hlen : bs.length ≤ fs.per) (hbs : ∀ b ∈ bs, L.Data b) {ind : Nat} (hind : L.Data ind)
  (hdata : v.data ind = fs.ptrBlock bs)
include hlen hbs hind hdata

omit hlen in
theorem indirect_ptrBlock (k : Nat) : v.indirect ind k = bs.getD k 0 := by
  rw [indirect, if_neg hind.ne_zero, hdata, ptrBlock, le32_table fun b hb => (hbs b hb).lt]

theorem ptrs_ptrBlock : ptrs (v.data ind) = bs ++ List.replicate (fs.per - bs.length) 0 := by
  have hcount : (v.data ind).length / 4 = fs.per := by rw [hdata, length_ptrBlock L hlen, per]
  rw [ptrs, hcount]
  refine map_range_getD hlen fun k _ => ?_
  have hget := indirect_ptrBlock hbs hind hdata k
  rwa [indirect, if_neg hind.ne_zero] at hget

theorem branch_ptrBlock : v.branch ind = bs ++ [ind] := by
  rw [branch, if_neg hind.ne_zero, ptrs_ptrBlock hlen hbs hind hdata, filter_append,
    filter_eq_self.2 fun b hb => by simpa using (hbs b hb).ne_zero]
  simp

theorem branches_ptrBlock : v.branches ind = bs.flatMap v.branch ++ [ind] := by
  rw [branches, if_neg hind.ne_zero, ptrs_ptrBlock hlen hbs hind hdata, flatMap_append]
  simp [flatMap_replicate]

end

theorem Later.branch (h : Later v w) (hb : b ∈ v.used) : w.branch b = v.branch b := by
  rw [Vol.branch, Vol.branch, h.2 b hb]

theorem Later.indirect (h : Later v w) (hb : b ∈ v.used) (k : Nat) :
    w.indirect b k = v.indirect b k := by
  rw [Vol.indirect, Vol.indirect, h.2 b hb]

section

variable {direct : List Nat} (hlen : direct.length ≤ 12) (h0 : ∀ b ∈ direct, b ≠ 0) (ind dind : Nat)

include hlen h0 in
theorem directs_blockArray : directs (blockArray direct ind dind) = direct := by
  have hmap := map_range_getD (f := blockArray direct ind dind) hlen fun i hi => by
    rw [blockArray, if_pos hi]
  rw [directs, hmap, filter_append, filter_eq_self.2 fun b hb => by simpa using h0 b hb]
  simp

include hlen h0 in
theorem owned_blockArray (w : Vol) :
    w.owned (blockArray direct ind dind) = direct ++ w.branch ind ++ w.branches dind := by
  rw [owned, directs_blockArray hlen h0, append_assoc]
  rfl

theorem blockArray_lt {n i : Nat} (hd : ∀ b ∈ direct, b < n) (hind : ind < n) (hdind : dind < n) :
    blockArray direct ind dind i < n := by
  unfold blockArray
  split_ifs with h1 h2 h3
  · by_cases hlt : i < direct.length
    · rw [getD_eq_getElem _ _ hlt]
      exact hd _ (getElem_mem hlt)
    · rw [getD_eq_default _ _ (by omega)]
      omega
  · exact hind
  · exact hdind
  · omega

end

/-- A tree of blocks with the data in it. -/
structure Laid (L : Layout fs) (v₀ : Vol) (data : Bytes) (blk : Nat → Nat) (b512 : Nat) (w : Vol) :
    Prop where
  grown : Grown L v₀ (w.owned blk) w
  count : b512 = (w.owned blk).length * (fs.blockSize / 512)
  fits : (data.length + fs.blockSize - 1) / fs.blockSize ≤ fs.cap
  data : ∀ i, i < (data.length + fs.blockSize - 1) / fs.blockSize →
    w.ptr fs blk i ≠ 0 ∧ w.data (w.ptr fs blk i) = fs.chunk data i
  lt : ∀ i, blk i < 4294967296
  last : blk 14 = 0

/-- The first `m` blocks of the data are in place, in the direct blocks and under the indirect
one. -/
structure Started (L : Layout fs) (v₀ : Vol) (data : Bytes) (direct : List Nat) (ind m : Nat)
    (w : Vol) : Prop where
  short : direct.length ≤ 12
  grown : Grown L v₀ (direct ++ w.branch ind) w
  within : m ≤ 12 + fs.per
  data : ∀ i, i < m → w.ptr fs (blockArray direct ind 0) i ∈ direct ++ w.branch ind ∧
    w.data (w.ptr fs (blockArray direct ind 0) i) = fs.chunk data i

section Started

variable {data : Bytes} {direct : List Nat} {ind m : Nat}

theorem Grown.started (hw : Grown L v₀ direct w) (hlen : direct.length = min 12 n)
    (hchunk : ∀ i, i < min 12 n → w.data (direct.getD i 0) = fs.chunk data i) :
    Started L v₀ data direct 0 (min 12 n) w := by
  refine ⟨by omega, by simpa using hw, by omega, fun i hi => ?_⟩
  rw [ptr_direct (by omega), blockArray, if_pos (by omega)]
  refine ⟨mem_append_left _ ?_, hchunk i hi⟩
  rw [getD_eq_getElem _ _ (by omega : i < direct.length)]
  exact getElem_mem _

variable (hst : Started L v₀ data direct ind m w)
include hst

theorem Started.ne_zero : ∀ b ∈ direct, b ≠ 0 := fun b hb =>
  (hst.grown.data b (mem_append_left _ hb)).ne_zero

theorem Started.single : ind = 0 ∨ L.Data ind ∧ ind ∈ w.used := by
  by_cases h0 : ind = 0
  · exact .inl h0
  · have hmem : ind ∈ direct ++ w.branch ind := mem_append_right _ (mem_branch_self h0)
    exact .inr ⟨hst.grown.data _ hmem, hst.grown.mem_used.2 (.inr hmem)⟩

theorem Started.array_lt {dind : Nat} (hdind : dind < 2 ^ 32) (i : Nat) :
    blockArray direct ind dind i < 2 ^ 32 := by
  refine blockArray_lt _ _ (fun b hb => (hst.grown.data b (mem_append_left _ hb)).lt) ?_ hdind
  rcases hst.single with rfl | ⟨hind, -⟩
  · omega
  · exact hind.lt

/-- The blocks so far stay what they are, whatever comes later. -/
theorem Started.later {w' : Vol} (hlater : Later w w') (dind : Nat) {i : Nat} (hi : i < m) :
    w'.ptr fs (blockArray direct ind dind) i ≠ 0 ∧
      w'.data (w'.ptr fs (blockArray direct ind dind) i) = fs.chunk data i := by
  have hptr : w'.ptr fs (blockArray direct ind dind) i = w.ptr fs (blockArray direct ind 0) i := by
    have := hst.within
    unfold ptr
    split_ifs with h12 hper
    · rw [blockArray, blockArray, if_pos h12, if_pos h12]
    · change w'.indirect ind _ = w.indirect ind _
      rcases hst.single with rfl | ⟨-, hused⟩
      · simp
      · exact hlater.indirect hused _
    · omega
  obtain ⟨hmem, hchunk⟩ := hst.data i hi
  rw [hptr]
  exact ⟨(hst.grown.data _ hmem).ne_zero,
    (hlater.2 _ (hst.grown.mem_used.2 (.inr hmem))).trans hchunk⟩

theorem Started.indirect {b : Nat} {w' : Vol} (hm : 12 ≤ m) (hlater : Later w w')
    (hgrown : Grown L v₀ (direct ++ w'.branch b) w')
    (hdata : ∀ k, k < min fs.per n → w'.indirect b k ∈ w'.branch b ∧
      w'.data (w'.indirect b k) = fs.chunk data (12 + k)) :
    Started L v₀ data direct b (12 + min fs.per n) w' := by
  refine ⟨hst.short, hgrown, by omega, fun i hi => ?_⟩
  by_cases h12 : i < 12
  · obtain ⟨hne, hchunk⟩ := hst.later hlater 0 (i := i) (by omega)
    rw [ptr_direct h12, blockArray, if_pos h12] at hne hchunk ⊢
    refine ⟨mem_append_left _ (mem_of_getD_ne hne), hchunk⟩
  · obtain ⟨hmem, hchunk⟩ := hdata (i - 12) (by omega)
    rw [Nat.add_sub_cancel' (by omega)] at hchunk
    rw [ptr, if_neg h12, if_pos (by omega)]
    exact ⟨mem_append_right _ hmem, hchunk⟩

theorem Started.laid {b512 : Nat} (hm : (data.length + fs.blockSize - 1) / fs.blockSize = m)
    (hcount : b512 = (direct ++ w.branch ind).length * (fs.blockSize / 512)) :
    Laid L v₀ data (blockArray direct ind 0) b512 w := by
  have howned : w.owned (blockArray direct ind 0) = direct ++ w.branch ind := by
    rw [owned_blockArray hst.short hst.ne_zero, branches_zero, append_nil]
  refine ⟨howned ▸ hst.grown, howned ▸ hcount, ?_, fun i hi => ?_, hst.array_lt (by omega), rfl⟩
  · have := hst.within
    unfold cap
    omega
  · exact hst.later (Later.refl w) 0 (by omega)

end Started

/-! ## Laying out -/

section Lay

variable {data : Bytes} {E : Stop → Vol → Prop} {C : Vol → Prop}
  (hC : ∀ new' w, Grown L v₀ new' w → C w)
  (hE : ∀ new' w, Grown L v₀ new' w → L.BlocksFull w → E .none w)
include hC hE

theorem meets_layBlock {β : Type} {x : Bytes} (hx : x.length = fs.blockSize) (hv : Grown L v₀ new v)
    {f : Nat → M β} {Q : β → Vol → Prop}
    (hQ : ∀ b w, L.Data b → b ∉ v.used → Grown L v₀ (new ++ [b]) w → Later v w → w.data b = x →
      w.used = insert b v.used → L.Meets w (f b) Q E C) :
    L.Meets v (do let b ← fs.allocBlock; fs.writeBlock b x; f b) Q E C := by
  refine bind (meets_allocBlock (hE _ _ hv) (hC _ _ hv) (fun b hb hfree => ?_)
    fun b hb hfree y => hC _ _ (hv.addBlock hb hfree y))
  have hnew := hv.addBlock hb hfree (List.replicate fs.blockSize 0)
  have hmem : b ∈ new ++ [b] := mem_append_right _ mem_cons_self
  refine bind (meets_writeBlock hb hx ?_ (hC _ _ (hnew.putData hmem _))
    fun k _ _ => hC _ _ (hnew.putData hmem _))
  refine hQ b _ hb hfree (hnew.putData hmem x)
    (later_putData (later_addBlock hfree _) hfree _) ?_ rfl
  rw [putData_data, update_self]

variable {bi : Nat}

theorem meets_layRun (hv : Grown L v₀ new v) {Q : List Nat → Vol → Prop}
    (hQ : ∀ out w, out.length = n → Grown L v₀ (new ++ out) w → Later v w →
      (∀ i, i < n → w.data (out.getD i 0) = fs.chunk data (bi + i)) → Q out w) :
    L.Meets v (fs.layRun data n bi) Q E C := by
  induction n generalizing v new bi Q with
  | zero => exact pure (hQ [] v rfl (by rwa [append_nil]) (Later.refl v) nofun)
  | succ n ih =>
    refine meets_layBlock hC hE (length_chunk data bi) hv
      fun b w hb hfree hw hlater hdata hused => ?_
    refine bind (ih hw fun out w' hlen hw' hlater' hchunk => pure ?_)
    refine hQ (b :: out) w' (by rw [length_cons, hlen]) ?_ (hlater.trans hlater') fun i hi => ?_
    · rwa [append_assoc] at hw'
    · cases i with
      | zero =>
        rw [getD_cons_zero, hlater'.2 b (by rw [hused]; exact Finset.mem_insert_self ..), hdata,
          add_zero]
      | succ i =>
        rw [getD_cons_succ, hchunk i (by omega)]
        congr 1
        omega

theorem meets_layIndirect (hv : Grown L v₀ new v) {Q : Nat → Vol → Prop}
    (hQ : ∀ ind w, L.Data ind → Grown L v₀ (new ++ w.branch ind) w → Later v w →
      (w.branch ind).length = min fs.per n + 1 →
      (∀ k, k < min fs.per n → w.indirect ind k ∈ w.branch ind ∧
        w.data (w.indirect ind k) = fs.chunk data (bi + k)) → Q ind w) :
    L.Meets v (fs.layIndirect data bi n) Q E C := by
  refine bind (meets_allocBlock (hE _ _ hv) (hC _ _ hv) (fun ind hind hfree => ?_)
    fun b hb hfree y => hC _ _ (hv.addBlock hb hfree y))
  have hnew := hv.addBlock hind hfree (List.replicate fs.blockSize 0)
  refine bind (meets_layRun hC hE hnew fun out w hlen hw hlater hchunk => ?_)
  have hlen : out.length = min fs.per n := hlen
  have hlen' : out.length ≤ fs.per := hlen ▸ min_le_left ..
  have hout : ∀ b ∈ out, L.Data b := fun b hb => hw.data b (mem_append_right _ hb)
  have hmem : ind ∈ new ++ [ind] ++ out := by simp
  have hnotin : ind ∉ out := fun h =>
    (nodup_append.1 hw.nodup).2.2 ind (by simp) ind h rfl
  have hw' := fun x => hw.putData hmem x
  refine bind (meets_writeBlock hind (length_ptrBlock L hlen') ?_ (hC _ _ (hw' _))
    fun k _ _ => hC _ _ (hw' _))
  refine pure ?_
  have hdata : (w.putData ind (fs.ptrBlock out)).data ind = fs.ptrBlock out := by
    rw [putData_data, update_self]
  have hbr := branch_ptrBlock hlen' hout hind hdata
  refine hQ ind _ hind ?_
    (later_putData ((later_addBlock hfree _).trans hlater) hfree _) ?_ fun k hk => ?_
  · refine (hw' _).perm ?_
    rw [hbr, append_assoc]
    exact List.Perm.append_left _ perm_append_comm
  · rw [hbr, length_append, hlen, length_singleton]
  · have hk' : k < out.length := by omega
    have hget : out.getD k 0 = out[k] := getD_eq_getElem _ _ hk'
    rw [indirect_ptrBlock hout hind hdata k]
    refine ⟨?_, ?_⟩
    · rw [hget, hbr]
      exact mem_append_left _ (getElem_mem hk')
    · rw [putData_data, update_of_ne, hchunk k hk]
      rw [hget]
      rintro rfl
      exact hnotin (getElem_mem hk')

theorem meets_layIndirects {j : Nat} (hv : Grown L v₀ new v) {Q : List Nat → Vol → Prop}
    (hQ : ∀ inds w, inds.length ≤ j → (∀ b ∈ inds, L.Data b) →
      Grown L v₀ (new ++ inds.flatMap w.branch) w → Later v w →
      (inds.flatMap w.branch).length = min n (j * fs.per) + inds.length →
      (∀ i, i < min n (j * fs.per) →
        w.indirect (inds.getD (i / fs.per) 0) (i % fs.per) ∈ inds.flatMap w.branch ∧
          w.data (w.indirect (inds.getD (i / fs.per) 0) (i % fs.per)) = fs.chunk data (bi + i)) →
      Q inds w) : L.Meets v (fs.layIndirects data j bi n) Q E C := by
  have hpos := per_pos L
  induction j generalizing v new bi n Q with
  | zero =>
    exact pure (hQ [] v le_rfl nofun (by simpa using hv) (Later.refl v) (by simp) (by simp))
  | succ j ih =>
    rw [layIndirects]
    split_ifs with hn
    · subst hn
      exact pure (hQ [] v (by simp) nofun (by simpa using hv) (Later.refl v) (by simp) (by simp))
    refine bind (meets_layIndirect hC hE hv fun ind w hind hw hlater hlen hdata => ?_)
    refine bind (ih hw fun inds w' hj hinds hw' hlater' hlen' hdata' => pure ?_)
    have hused : ∀ b ∈ w.branch ind, b ∈ w.used := fun b hb =>
      hw.mem_used.2 (.inr (mem_append_right _ hb))
    have hself := hused ind (mem_branch_self hind.ne_zero)
    have hsame : w'.branch ind = w.branch ind := hlater'.branch hself
    refine hQ (ind :: inds) w' (by simpa using hj) (forall_mem_cons.2 ⟨hind, hinds⟩) ?_
      (hlater.trans hlater') ?_ fun i hi => ?_
    · rwa [flatMap_cons, hsame, ← append_assoc]
    · rw [flatMap_cons, length_append, hlen', hsame, hlen, length_cons, add_mul]
      unfold per at *
      omega
    · rw [add_mul] at hi
      rw [flatMap_cons, hsame]
      by_cases hlt : i < fs.per
      · obtain ⟨hmem, hchunk⟩ := hdata i (by omega)
        rw [Nat.div_eq_of_lt hlt, Nat.mod_eq_of_lt hlt, getD_cons_zero,
          hlater'.indirect hself, hlater'.2 _ (hused _ hmem)]
        exact ⟨mem_append_left _ hmem, hchunk⟩
      · obtain ⟨i, rfl⟩ := Nat.exists_eq_add_of_le (Nat.le_of_not_lt hlt)
        obtain ⟨hmem, hchunk⟩ := hdata' i (by unfold per at *; omega)
        rw [Nat.add_div_left i hpos, Nat.add_mod_left, getD_cons_succ, ← add_assoc]
        exact ⟨mem_append_right _ hmem, hchunk⟩

theorem meets_layOutData {Q : (Nat → Nat) × Nat → Vol → Prop}
    (hbig : ∀ new' w, Grown L v₀ new' w → new' ≠ [] →
      fs.cap < (data.length + fs.blockSize - 1) / fs.blockSize → E .none w)
    (hQ : ∀ blk b512 w, Laid L v₀ data blk b512 w → Q (blk, b512) w) :
    L.Meets v₀ (fs.layOutData data) Q E C := by
  rw [layOutData]
  generalize hn : (data.length + fs.blockSize - 1) / fs.blockSize = n
  refine bind (meets_layRun hC hE (Grown.refl L v₀) fun direct w hlen hw _ hchunk => ?_)
  rw [nil_append] at hw
  have hst := hw.started hlen fun i hi => by rw [hchunk i hi, Nat.zero_add]
  by_cases h12 : n ≤ 12
  · rw [if_pos h12]
    refine pure (hQ _ _ w (hst.laid (by omega) ?_))
    rw [branch_zero, append_nil, hlen, Nat.min_eq_right h12]
  rw [if_neg h12]
  refine bind (meets_layIndirect hC hE hw fun ind w₁ hind hw₁ hlater hcount hdata => ?_)
  have hst₁ := hst.indirect (by omega) hlater hw₁ hdata
  have hpdef : fs.blockSize / 4 = fs.per := rfl
  rw [hpdef]
  by_cases hper : n ≤ 12 + fs.per
  · rw [if_pos hper]
    refine pure (hQ _ _ w₁ (hst₁.laid (by omega) ?_))
    rw [length_append, hcount, hlen]
    congr 1
    omega
  rw [if_neg hper]
  refine bind (meets_allocBlock (hE _ _ hw₁) (hC _ _ hw₁) (fun dind hdind hfree => ?_)
    fun b hb hfree y => hC _ _ (hw₁.addBlock hb hfree y))
  have hused₁ : ind ∈ w₁.used :=
    hw₁.mem_used.2 (.inr (mem_append_right _ (mem_branch_self hind.ne_zero)))
  have hnew := hw₁.addBlock hdind hfree (List.replicate fs.blockSize 0)
  refine bind (meets_layIndirects hC hE hnew fun inds w₃ hj hinds hw₃ hlater₃ hcount₃ hdata₃ => ?_)
  have hmem : dind ∈ direct ++ w₁.branch ind ++ [dind] ++ inds.flatMap w₃.branch := by simp
  have hnotin : dind ∉ inds.flatMap w₃.branch := fun h =>
    (nodup_append.1 hw₃.nodup).2.2 dind (by simp) dind h rfl
  have hw₄ := fun x => hw₃.putData hmem x
  refine bind (meets_writeBlock hdind (length_ptrBlock L hj) ?_ (hC _ _ (hw₄ _))
    fun k _ _ => hC _ _ (hw₄ _))
  generalize hw : w₃.putData dind (fs.ptrBlock inds) = w₄
  have hlater₄ : Later w₁ w₄ := hw ▸ later_putData ((later_addBlock hfree _).trans hlater₃) hfree _
  have hkeep : ∀ b, b ≠ dind → w₄.data b = w₃.data b := fun b hb => by
    rw [← hw, putData_data, update_of_ne hb]
  have hdata₄ : w₄.data dind = fs.ptrBlock inds := by rw [← hw, putData_data, update_self]
  have hne' : ∀ b ∈ inds, b ≠ dind := fun b hb heq =>
    hnotin (heq ▸ mem_flatMap.2 ⟨b, hb, mem_branch_self (hinds b hb).ne_zero⟩)
  have hbr : inds.flatMap w₄.branch = inds.flatMap w₃.branch :=
    flatMap_congr fun b hb => by rw [branch, branch, hkeep b (hne' b hb)]
  have howned : w₄.owned (blockArray direct ind dind) =
      direct ++ w₁.branch ind ++ (inds.flatMap w₃.branch ++ [dind]) := by
    rw [owned_blockArray hst.short hst.ne_zero, hlater₄.branch hused₁,
      branches_ptrBlock hj hinds hdind hdata₄, hbr]
  have hgrown : Grown L v₀ (w₄.owned (blockArray direct ind dind)) w₄ := by
    rw [howned, ← hw]
    refine (hw₄ _).perm ?_
    rw [append_assoc (direct ++ w₁.branch ind)]
    exact List.Perm.append_left _ perm_append_comm
  split_ifs with htoo
  · refine stop (hbig _ _ hgrown ?_ (by rw [hn]; exact htoo))
    rw [howned]
    simp
  refine pure (hQ _ _ w₄ ⟨hgrown, ?_, ?_, fun i hi => ?_, hst₁.array_lt hdind.lt, rfl⟩)
  · rw [howned]
    simp only [length_append, hcount, hcount₃, length_singleton]
    congr 1
    omega
  · rw [hn]
    unfold cap
    omega
  · rw [hn] at hi
    by_cases hsmall : i < 12 + fs.per
    · exact hst₁.later hlater₄ dind (by omega)
    · obtain ⟨hmem, hchunk⟩ := hdata₃ (i - (12 + fs.per)) (by omega)
      have hne := (hw₃.data _ (mem_append_right _ hmem)).ne_zero
      have hind' : inds.getD ((i - (12 + fs.per)) / fs.per) 0 ∈ inds := by
        refine mem_of_getD_ne fun h0 => hne ?_
        rw [h0, indirect_zero]
      have hptr : w₄.ptr fs (blockArray direct ind dind) i =
          w₃.indirect (inds.getD ((i - (12 + fs.per)) / fs.per) 0)
            ((i - (12 + fs.per)) % fs.per) := by
        rw [ptr, if_neg (by omega), if_neg hsmall]
        show w₄.indirect (w₄.indirect dind _) _ = _
        rw [indirect_ptrBlock hinds hdind hdata₄, indirect, indirect, hkeep _ (hne' _ hind')]
      rw [hptr, hkeep _ fun heq => hnotin (heq ▸ hmem), hchunk, Nat.add_sub_cancel' (by omega)]
      exact ⟨hne, rfl⟩

end Lay

/-! ## What was laid out is read back -/

variable {blk : Nat → Nat}

theorem Vol.owned_congr (w : Vol) {blk' : Nat → Nat} (h : ∀ i, i < 14 → blk i = blk' i) :
    w.owned blk = w.owned blk' := by
  have hmap : (List.range 12).map blk = (List.range 12).map blk' :=
    map_congr_left fun i hi => h i (by rw [mem_range] at hi; omega)
  rw [owned, owned, directs, directs, hmap, tail, tail, h 12 (by omega), h 13 (by omega)]

theorem Vol.ptr_congr (w : Vol) {blk' : Nat → Nat} (h : ∀ i, i < 14 → blk i = blk' i) (i : Nat) :
    w.ptr fs blk i = w.ptr fs blk' i := by
  rw [ptr, ptr, h 12 (by omega), h 13 (by omega)]
  split_ifs with h12
  · exact h i (by omega)
  · rfl
  · rfl

theorem flatMap_chunk (data : Bytes) (n : Nat) : (List.range n).flatMap (fs.chunk data) =
      data.take (n * fs.blockSize) ++ List.replicate (n * fs.blockSize - data.length) 0 := by
  induction n with
  | zero => simp
  | succ n ih =>
    have hlen : (slice data (n * fs.blockSize) fs.blockSize).length =
        min fs.blockSize (data.length - n * fs.blockSize) := by
      rw [slice, length_take, length_drop]
    rw [range_succ, flatMap_append, ih, flatMap_singleton, chunk, hlen, add_mul, one_mul]
    rcases Nat.le_total (n * fs.blockSize) data.length with hle | hle
    · rw [Nat.sub_eq_zero_of_le hle, replicate_zero, append_nil, take_add, append_assoc, slice]
      congr 3
      omega
    · have hnil : slice data (n * fs.blockSize) fs.blockSize = [] := by
        rw [slice, drop_of_length_le hle, take_nil]
      rw [hnil, nil_append, take_of_length_le hle, take_of_length_le (by omega),
        append_assoc, ← replicate_add]
      congr 2
      omega

theorem Laid.content {data : Bytes} {b512 : Nat} (h : Laid L v₀ data blk b512 w) {node : Inode}
    (hblk : ∀ i, i < 14 → node.block i = blk i) (hsize : node.size = data.length) :
    w.content fs node = data := by
  have hbs := L.blockSize_pos
  rw [Vol.content, hsize]
  by_cases h0 : data.length = 0
  · rw [h0, take_zero, length_eq_zero_iff.1 h0]
  -- a file that is not empty has as many blocks as its data
  have hmap : min (fs.mapLen node.size) fs.cap =
    (data.length + fs.blockSize - 1) / fs.blockSize := by
    have hpos : 1 ≤ (data.length + fs.blockSize - 1) / fs.blockSize :=
      (one_le_div_iff hbs).2 (by omega)
    have := h.fits
    rw [mapLen, hsize]
    omega
  have hchunks : (w.map fs node).flatMap (w.blockAt fs) =
      (List.range ((data.length + fs.blockSize - 1) / fs.blockSize)).flatMap (fs.chunk data) := by
    rw [Vol.map, hmap, flatMap_map]
    refine flatMap_congr fun i hi => ?_
    obtain ⟨h1, h2⟩ := h.data i (mem_range.1 hi)
    rw [w.ptr_congr hblk, Vol.blockAt, if_neg h1, h2]
  have hle : data.length ≤ (data.length + fs.blockSize - 1) / fs.blockSize * fs.blockSize := by
    have := lt_div_mul_add hbs (a := data.length + fs.blockSize - 1)
    omega
  rw [hchunks, flatMap_chunk, take_of_length_le hle, take_left]

end Thos.Ext2
