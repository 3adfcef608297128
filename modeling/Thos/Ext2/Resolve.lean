import Thos.Ext2.Walks

/-!
# Lexical resolution

`resolve_path` takes the dots out of a path without looking at the disk. On a file system
whose directories have their `.` and `..`, what it makes of a path leads where a walk along
the path itself leads, as long as that walk stays in directories. The stack of names that
`resolve_path` keeps is at every moment a path to where the walk is.
-/

set_option autoImplicit false

namespace Thos.Ext2

open Thos.Lib List

variable {fs : Ext2} {L : Layout fs} {v : Vol} {d : Disk} {comps : List Bytes}

/-! ## The source -/

/-- One part of a path in the loop of `resolve_path`. -/
def pushPart (comps : List Bytes) (part : Bytes) : List Bytes :=
  if part = [] ∨ part = dot then comps
  else if part = dotdot then comps.dropLast
  else comps ++ [part]

/-- The second loop of `resolve_path`. -/
def joinComps (comps : List Bytes) : Bytes :=
  comps.zipIdx.foldl (fun out (c, i) => (if 0 < i then out ++ [slash] else out) ++ c) [slash]

/-- `resolve_path` for a task with this working directory. -/
def resolvePath (cwd path : Bytes) : Bytes :=
  let base := if path.head? = some slash then [] else cwd
  joinComps ((base.splitOnP (· == slash) ++ path.splitOnP (· == slash)).foldl pushPart [])

def parentOf (path : Bytes) : Option Bytes :=
  let name := (path.reverse.takeWhile (· != slash)).reverse
  if name.length = path.length then none
  else
    let idx := path.length - name.length - 1
    some (if idx = 0 then [slash] else path.take idx)

/-- The walk along the names, component by component, through directories only. -/
def WalksTo (fs : Ext2) (d : Disk) : Nat → List Bytes → Nat → Prop
  | i, [], j => i = j
  | i, name :: names, j => ∃ node k, (fs.readInode i d).out = .ok node ∧ isDir node.mode = true ∧
      (fs.lookup i name d).out = .ok (some k) ∧ WalksTo fs d k names j

/-! ## The stack of names -/

/-- A component that is no dots. -/
def Normal (name : Bytes) : Prop := IsName name ∧ name ≠ dot ∧ name ≠ dotdot

section

variable {parts : List Bytes}

theorem foldl_pushPart_filter :
    parts.foldl pushPart comps = (parts.filter fun s => !s.isEmpty).foldl pushPart comps := by
  induction parts generalizing comps with
  | nil => rfl
  | cons part parts ih =>
    by_cases hnil : part = []
    · rw [foldl_cons, pushPart, if_pos (.inl hnil), filter_cons_of_neg (by simp [hnil]), ih]
    · rw [filter_cons_of_pos (by simpa using hnil), foldl_cons, foldl_cons, ih]

theorem foldl_pushPart_splitOnP (path : Bytes) :
    (path.splitOnP (· == slash)).foldl pushPart comps = (components path).foldl pushPart comps := by
  rw [foldl_pushPart_filter]
  rfl

theorem normal_foldl (hcomps : ∀ name ∈ comps, Normal name) (hparts : ∀ part ∈ parts, IsName part) :
    ∀ name ∈ parts.foldl pushPart comps, Normal name := by
  induction parts generalizing comps with
  | nil => exact hcomps
  | cons part parts ih =>
    obtain ⟨hpart, hparts⟩ := forall_mem_cons.1 hparts
    refine ih ?_ hparts
    rw [pushPart]
    split_ifs with h1 h2
    · exact hcomps
    · exact fun name hname => hcomps name (mem_of_mem_dropLast hname)
    · exact forall_mem_append.2 ⟨hcomps,
        forall_mem_singleton.2 ⟨hpart, fun hdot => h1 (.inr hdot), h2⟩⟩

theorem foldl_pushPart_normal (hparts : ∀ part ∈ parts, Normal part) :
    parts.foldl pushPart comps = comps ++ parts := by
  induction parts generalizing comps with
  | nil => rw [append_nil]; rfl
  | cons part parts ih =>
    obtain ⟨hpart, hparts⟩ := forall_mem_cons.1 hparts
    rw [foldl_cons, ih hparts, pushPart,
      if_neg (fun h => h.elim hpart.1.1 hpart.2.1), if_neg hpart.2.2, append_assoc]
    rfl

theorem foldl_joinComps (out : Bytes) {k : Nat} (hk : 0 < k) :
    (comps.zipIdx k).foldl (fun out (c, i) => (if 0 < i then out ++ [slash] else out) ++ c) out =
      out ++ joinPath comps := by
  induction comps generalizing out k with
  | nil => rw [joinPath, flatMap_nil, append_nil]; rfl
  | cons c comps ih =>
    rw [zipIdx_cons, foldl_cons, ih _ (by omega)]
    simp [joinPath, hk]

theorem joinComps_cons (c : Bytes) : joinComps (c :: comps) = joinPath (c :: comps) := by
  rw [joinComps, zipIdx_cons, foldl_cons, foldl_joinComps _ (by omega)]
  rfl

theorem components_joinComps (h : ∀ name ∈ comps, IsName name) :
    components (joinComps comps) = comps := by
  cases comps with
  | nil => rfl
  | cons c comps => rw [joinComps_cons, components_joinPath h]

theorem head?_joinComps : (joinComps comps).head? = some slash := by
  cases comps with
  | nil => rfl
  | cons c comps => rw [joinComps_cons]; rfl

end

/-- The components that `resolve_path` keeps. -/
def kept (cwd path : Bytes) : List Bytes :=
  (components (if path.head? = some slash then path else cwd ++ slash :: path)).foldl pushPart []

theorem resolvePath_eq (cwd path : Bytes) : resolvePath cwd path = joinComps (kept cwd path) := by
  rw [resolvePath, kept]
  split_ifs
  · rw [foldl_append, foldl_pushPart_splitOnP, foldl_pushPart_splitOnP]
    rfl
  · rw [foldl_append, foldl_pushPart_splitOnP, foldl_pushPart_splitOnP, components_append,
      foldl_append]

theorem normal_kept (cwd path : Bytes) : ∀ name ∈ kept cwd path, Normal name :=
  normal_foldl nofun fun _ hpart => isName_of_mem_components hpart

/-! ## The stack follows the walk -/

theorem Vol.find_of_filter {node : Inode} {name : Bytes} {j : Nat}
    (h : (v.entries fs node).filter (fun e => e.name = name) = [⟨j, name⟩]) :
    v.find fs node name = some j := by
  rw [Vol.find, ← head?_filter, h]
  rfl

section

variable (h : Consistent L v)
include h

theorem Consistent.find_dot {i : Nat} (hi : i ∈ v.dirs) : v.find fs (v.node i) dot = some i :=
  Vol.find_of_filter (h.names.self i hi)

theorem Consistent.find_dotdot {i : Nat} (hi : i ∈ v.dirs) :
    v.find fs (v.node i) dotdot = some ((L.names v).up i) :=
  Vol.find_of_filter (h.names.parent i hi)

theorem Consistent.resolve_dropLast {i : Nat} (hcomps : ∀ name ∈ comps, Normal name)
    (hres : v.resolve fs rootIno comps = some i) (hi : i ∈ v.dirs) :
    v.resolve fs rootIno comps.dropLast = some ((L.names v).up i) := by
  cases comps using reverseRecOn with
  | nil =>
    cases hres
    rw [h.names.up_root]
    rfl
  | append_singleton comps name =>
    rw [resolve_append] at hres
    obtain ⟨u, hu, hlast⟩ := Option.bind_eq_some_iff.1 hres
    rw [Vol.resolve] at hlast
    split_ifs at hlast with hdir
    obtain ⟨j, hfind, ⟨⟩⟩ := Option.bind_eq_some_iff.1 hlast
    have hul := h.resolve_mem (h.mem_live h.names.root) hu
    have hud := (h.kept.dirs u hul).1 hdir
    have hname := hcomps name (mem_append_right _ mem_cons_self)
    have hup := h.names.up_eq hi hud (h.find_mem hud hfind).1 hname.2 rfl
    rw [dropLast_concat, hu, ← hup.2]

theorem Consistent.resolve_pushPart {part : Bytes} {i j : Nat}
    (hcomps : ∀ name ∈ comps, Normal name) (hpart : IsName part)
    (hres : v.resolve fs rootIno comps = some i) (hi : i ∈ v.dirs)
    (hfind : v.find fs (v.node i) part = some j) :
    v.resolve fs rootIno (pushPart comps part) = some j := by
  rw [pushPart]
  split_ifs with h1 h2
  · obtain rfl := h1.resolve_left hpart.1
    rw [h.find_dot hi] at hfind
    rwa [← hfind]
  · subst h2
    rw [h.find_dotdot hi] at hfind
    rw [← hfind]
    exact h.resolve_dropLast hcomps hres hi
  · rw [resolve_append, hres]
    change v.resolve fs i [part] = some j
    rw [Vol.resolve, if_pos (h.isDir hi), hfind]
    rfl

variable (hd : L.Glimpse d v)
include hd

theorem Consistent.walksTo_cons {name : Bytes} {names : List Bytes} {i j k : Nat} (hi : i ∈ v.dirs)
    (hfind : v.find fs (v.node i) name = some j) (hrest : fs.WalksTo d j names k) :
    fs.WalksTo d i (name :: names) k := by
  refine ⟨_, j, h.readInode hd (h.mem_live hi), h.isDir hi, ?_, hrest⟩
  rw [h.lookup_dir hd hi, hfind]

theorem Consistent.resolve_foldl {parts : List Bytes} {i j : Nat}
    (hcomps : ∀ name ∈ comps, Normal name) (hparts : ∀ part ∈ parts, IsName part)
    (hres : v.resolve fs rootIno comps = some i) (hwalk : fs.WalksTo d i parts j) :
    v.resolve fs rootIno (parts.foldl pushPart comps) = some j := by
  induction parts generalizing comps i with
  | nil =>
    obtain rfl : i = j := hwalk
    exact hres
  | cons part parts ih =>
    obtain ⟨hpart, hparts⟩ := forall_mem_cons.1 hparts
    obtain ⟨node, k, hnode, hdir, hlookup, hwalk⟩ := hwalk
    have hil := h.resolve_mem (h.mem_live h.names.root) hres
    obtain rfl := ok_unique hnode (h.readInode hd hil)
    have hi := (h.kept.dirs i hil).1 hdir
    rw [h.lookup_dir hd hi part] at hlookup
    have hfind : v.find fs (v.node i) part = some k := Except.ok.inj hlookup
    refine ih (normal_foldl hcomps (forall_mem_singleton.2 hpart)) hparts ?_ hwalk
    exact h.resolve_pushPart hcomps hpart hres hi hfind

end

/-! ## The parent of a path -/

theorem parentOf_append (p : Bytes) {name : Bytes} (h : IsName name) :
    parentOf (p ++ slash :: name) = some (if p = [] then [slash] else p) := by
  have hname : (p ++ slash :: name).reverse.takeWhile (· != slash) = name.reverse := by
    rw [reverse_append, reverse_cons, append_assoc, takeWhile_append_of_pos]
    · simp
    · intro x hx
      simpa using ne_of_mem_of_not_mem (mem_reverse.1 hx) h.2
  have hlen : (p ++ slash :: name).length = p.length + 1 + name.length := by
    rw [length_append, length_cons]
    omega
  simp only [parentOf, reverse_reverse, hname, hlen]
  rw [if_neg (by omega), show p.length + 1 + name.length - name.length - 1 = p.length by
    omega, take_left]
  simp

theorem parentOf_joinComps (hcomps : ∀ name ∈ comps, Normal name) {parent name : Bytes}
    (hsplit : splitParent (joinComps comps) = some (parent, name)) : parentOf (joinComps comps) =
    some parent := by
  cases comps using reverseRecOn with
  | nil => cases hsplit
  | append_singleton comps last =>
    have hlast := (hcomps last (mem_append_right _ mem_cons_self)).1
    have hjoin : joinComps (comps ++ [last]) = joinPath comps ++ slash :: last := by
      have hne : comps ++ [last] = (comps ++ [last]).head (by simp) ::
        (comps ++ [last]).tail := by simp
      rw [hne, joinComps_cons, ← hne]
      simp [joinPath]
    rw [hjoin, splitParent_append _ hlast] at hsplit
    cases hsplit
    rw [hjoin, parentOf_append _ hlast]

/-- `resolve_path` agrees with the walk on the disk: from the working directory for a path
that does not start with a slash, from the root for one that does. -/
theorem resolve_path_agrees (h : Consistent L v) (hd : L.Image d v) (cwd path : Bytes) :
    (∀ i, fs.WalksTo d rootIno
        (components (if path.head? = some slash then path else cwd ++ slash :: path)) i →
      (fs.pathLookup (resolvePath cwd path) d).out = .ok (some i)) ∧
    (resolvePath cwd path).head? = some slash ∧
    (resolvePath cwd path = [slash] ∨ ∀ part ∈ (resolvePath cwd path).tail.splitOnP (· == slash),
      part ≠ [] ∧ part ≠ dot ∧ part ≠ dotdot) ∧
    (∀ cwd', resolvePath cwd' (resolvePath cwd path) = resolvePath cwd path) ∧
    ∀ parent name, splitParent (resolvePath cwd path) = some (parent, name) →
      parentOf (resolvePath cwd path) = some parent := by
  have hnormal := normal_kept cwd path
  have hnames : ∀ name ∈ kept cwd path, IsName name := fun name hname => (hnormal name hname).1
  refine ⟨fun i hwalk => ?_, ?_, ?_, fun cwd' => ?_, fun parent name hsplit => ?_⟩
  · have hroot := h.mem_live h.names.root
    have hres : v.resolve fs rootIno (kept cwd path) = some i :=
      h.resolve_foldl hd.glimpse nofun (fun _ hpart => isName_of_mem_components hpart) rfl hwalk
    rw [resolvePath_eq, pathLookup, components_joinComps hnames]
    exact congrArg _ (h.walk_of_resolve hd.glimpse hroot hres)
  · rw [resolvePath_eq, head?_joinComps]
  · rw [resolvePath_eq]
    cases hkept : kept cwd path with
    | nil => exact .inl rfl
    | cons c comps =>
      rw [hkept] at hnormal hnames
      right
      rw [joinComps_cons]
      change ∀ part ∈ (c ++ joinPath comps).splitOnP (· == slash), _
      rw [splitOnP_joinPath hnames]
      exact fun part hpart => ⟨(hnormal part hpart).1.1, (hnormal part hpart).2⟩
  · rw [resolvePath_eq cwd' _, resolvePath_eq cwd path, kept, if_pos head?_joinComps,
      components_joinComps hnames, foldl_pushPart_normal hnormal, nil_append]
  · rw [resolvePath_eq] at hsplit ⊢
    exact parentOf_joinComps hnormal hsplit

/-- `a/../a` from the root of a file system with the directory `/a`. -/
theorem resolve_path_agrees_up :
    ∃ (L : Layout (plainFs 1030)) (v : Vol) (d : Disk) (i : Nat), L.Image d v ∧ Consistent L v ∧
      (plainFs 1030).WalksTo d rootIno (components ([47] ++ slash :: [97, 47, 46, 46, 47, 97])) i ∧
      ((plainFs 1030).pathLookup (resolvePath [47] [97, 47, 46, 46, 47, 97]) d).out =
        .ok (some i) := by
  obtain ⟨L, v, d, i, -, hd, h, hi, -, hfind⟩ := exists_subdirectory
  have hroot := h.names.root
  have hprop : [97] ≠ dot ∧ [97] ≠ dotdot := by decide
  have hup := (h.names.up_eq hi hroot (h.find_mem hroot hfind).1 hprop rfl).2
  have hwalk : (plainFs 1030).WalksTo d rootIno [[97], dotdot, [97]] i :=
    h.walksTo_cons hd.glimpse hroot hfind (h.walksTo_cons hd.glimpse hi (h.find_dotdot hi)
      (hup ▸ h.walksTo_cons hd.glimpse hroot hfind rfl))
  exact ⟨L, v, d, i, hd, h, hwalk, (resolve_path_agrees h hd [47] _).1 i hwalk⟩

/-! ## A path that starts with a slash -/

/-- In the directory `/a`, the path `/` is the root, and not what the walk along `/a//` leads
to. -/
theorem absolute_path_leaves_cwd : ∃ (L : Layout (plainFs 1030)) (v : Vol) (d : Disk) (i : Nat),
    (mount d).out = .ok (plainFs 1030) ∧ L.Image d v ∧ Consistent L v ∧ i ∈ v.dirs ∧
      ((plainFs 1030).pathLookup [47, 97] d).out = .ok (some i) ∧
      (plainFs 1030).WalksTo d rootIno (components ([47, 97] ++ slash :: [47])) i ∧
      ((plainFs 1030).pathLookup (resolvePath [47, 97] [47]) d).out ≠ .ok (some i) := by
  obtain ⟨L, v, d, i, hmount, hd, h, hi, hne, hfind⟩ := exists_subdirectory
  have hroot := h.names.root
  have hlookup := h.lookup_dir hd.glimpse hroot [97]
  refine ⟨L, v, d, i, hmount, hd, h, hi, ?_, ?_, ?_⟩
  · change ((plainFs 1030).walk rootIno [[97]] d).out = _
    rw [walk, Prog.bind_of_read hlookup, hfind]
    rfl
  · exact h.walksTo_cons hd.glimpse hroot hfind rfl
  · intro heq
    have hroot' : ((plainFs 1030).pathLookup (resolvePath [47, 97] [47]) d).out =
      .ok (some rootIno) := rfl
    exact hne (Option.some_inj.1 (ok_unique heq hroot'))

end Thos.Ext2
