import Thos.Ext2.Model
import Thos.Lib.Text

/-!
# Paths

How a path falls apart: the components that `path_lookup` walks along, and the parent and
last name that `split_parent` gives the calls that change a directory.
-/

set_option autoImplicit false

namespace Thos.Ext2

open Thos.Lib List

/-- What can stand between two slashes. -/
def IsName (name : Bytes) : Prop := name ≠ [] ∧ slash ∉ name

theorem components_append (p q : Bytes) : components (p ++ slash :: q) = components p ++
    components q := by
  rw [components, splitOnP_append_cons p q (by simp), filter_append]
  rfl

variable {name : Bytes}

theorem IsName.splitOnP (h : IsName name) : name.splitOnP (· == slash) = [name] :=
  splitOnP_eq_singleton fun x hx => by simpa using ne_of_mem_of_not_mem hx h.2

theorem components_name (h : IsName name) : components name = [name] := by
  rw [components, h.splitOnP, filter_cons_of_pos (by simpa using h.1)]
  rfl

theorem isName_of_mem_components {p : Bytes} (h : name ∈ components p) : IsName name := by
  rw [components, mem_filter] at h
  exact ⟨by simpa using h.2, fun hmem => by simpa using not_of_mem_splitOnP h.1 _ hmem⟩

theorem splitParent_append (p : Bytes) (h : IsName name) :
    splitParent (p ++ slash :: name) = some (if p = [] then [slash] else p, name) := by
  have hname : (p ++ slash :: name).reverse.takeWhile (· != slash) = name.reverse := by
    rw [reverse_append, reverse_cons, append_assoc, takeWhile_append_of_pos]
    · simp
    · intro x hx
      simpa using ne_of_mem_of_not_mem (mem_reverse.1 hx) h.2
  have hlast : (p ++ slash :: name).reverse.dropWhile (· == slash) =
    (p ++ slash :: name).reverse := by
    cases hrev : name.reverse with
    | nil => exact absurd (reverse_eq_nil_iff.1 hrev) h.1
    | cons x init =>
      have hx : x ∈ name := mem_reverse.1 (hrev ▸ mem_cons_self)
      rw [reverse_append, reverse_cons, hrev, cons_append, cons_append,
        dropWhile_cons_of_neg (by simpa using ne_of_mem_of_not_mem hx h.2)]
  have hlen : (p ++ slash :: name).length = p.length + 1 + name.length := by
    rw [length_append, length_cons]
    omega
  simp only [splitParent, hlast, reverse_reverse, hname, hlen]
  rw [if_neg (by omega), if_neg (by simpa using h.1)]
  have hidx : p.length + 1 + name.length - name.length - 1 = p.length := by omega
  rw [hidx, take_left]
  simp

theorem components_slashes {s : Bytes} (hs : ∀ x ∈ s, x = slash) : components s = [] := by
  induction s with
  | nil => rfl
  | cons x s ih =>
    obtain ⟨rfl, hrest⟩ := forall_mem_cons.1 hs
    rw [← nil_append (slash :: s), components_append, ih hrest]
    rfl

theorem components_append_slashes (p : Bytes) {s : Bytes} (hs : ∀ x ∈ s, x = slash) :
    components (p ++ s) = components p := by
  cases s with
  | nil => rw [append_nil]
  | cons x s =>
    obtain ⟨rfl, hrest⟩ := forall_mem_cons.1 hs
    rw [components_append, components_slashes hrest, append_nil]

theorem components_of_splitParent {path parent : Bytes}
    (h : splitParent path = some (parent, name)) :
    IsName name ∧ components path = components parent ++ [name] := by
  have hpath : path = (path.reverse.dropWhile (· == slash)).reverse ++
      (path.reverse.takeWhile (· == slash)).reverse := by
    rw [← reverse_append, takeWhile_append_dropWhile, reverse_reverse]
  have hslashes : ∀ x ∈ (path.reverse.takeWhile (· == slash)).reverse, x = slash := fun x hx => by
    simpa using all_eq_true.1 all_takeWhile x (mem_reverse.1 hx)
  have hcomp : components path = components (path.reverse.dropWhile (· == slash)).reverse := by
    rw [hpath, components_append_slashes _ hslashes]
    simp
  rw [hcomp]
  simp only [splitParent] at h
  generalize path.reverse.dropWhile (· == slash) = q at h ⊢
  rw [reverse_reverse] at h
  have hq := takeWhile_append_dropWhile (p := (· != slash)) (l := q)
  have hall : ∀ x ∈ q.takeWhile (· != slash), x ≠ slash := fun x hx => by
    simpa using all_eq_true.1 all_takeWhile x hx
  generalize htw : q.takeWhile (· != slash) = tw at h hq hall
  -- a slash stands before the last name
  cases hdw : q.dropWhile (· != slash) with
  | nil =>
    rw [hdw, append_nil] at hq
    rw [hq, if_pos rfl] at h
    cases h
  | cons x rest =>
    have hx : x = slash := by
      have := head?_dropWhile_not (· != slash) q
      rw [hdw] at this
      simpa using this
    subst hx
    rw [hdw] at hq
    have hrev : q.reverse = rest.reverse ++ slash :: tw.reverse := by
      rw [← hq, reverse_append, reverse_cons, append_assoc]
      rfl
    have hlen : q.reverse.length - tw.reverse.length - 1 = rest.reverse.length := by
      rw [hrev, length_append, length_cons]
      omega
    rw [hlen, if_neg (by rw [hrev, length_append, length_cons]; omega)] at h
    split_ifs at h with hnil hidx <;> cases h
    all_goals
      have hname : IsName tw.reverse :=
        ⟨by simpa using hnil, fun hmem => hall _ (mem_reverse.1 hmem) rfl⟩
      refine ⟨hname, ?_⟩
      rw [hrev, components_append, components_name hname]
    · rw [eq_nil_of_length_eq_zero hidx]
      rfl
    · rw [take_left]

/-! ## Joining -/

def joinPath (names : List Bytes) : Bytes := names.flatMap (slash :: ·)

theorem components_joinPath {names : List Bytes} (h : ∀ name ∈ names, IsName name) :
    components (joinPath names) = names := by
  induction names using reverseRecOn with
  | nil => rfl
  | append_singleton names name ih =>
    have hname := h name (mem_append_right _ mem_cons_self)
    rw [joinPath, flatMap_append, flatMap_singleton, components_append, components_name hname]
    rw [← joinPath, ih fun n hn => h n (mem_append_left _ hn)]

theorem splitOnP_joinPath {names : List Bytes} (h : ∀ n ∈ name :: names, IsName n) :
    (name ++ joinPath names).splitOnP (· == slash) = name :: names := by
  induction names generalizing name with
  | nil => rw [joinPath, flatMap_nil, append_nil, (h name mem_cons_self).splitOnP]
  | cons name' names ih =>
    have hjoin : joinPath (name' :: names) = slash :: (name' ++ joinPath names) := rfl
    rw [hjoin, splitOnP_append_cons _ _ (by simp), (h name mem_cons_self).splitOnP,
      ih fun n hn => h n (mem_cons_of_mem _ hn)]
    rfl

end Thos.Ext2
