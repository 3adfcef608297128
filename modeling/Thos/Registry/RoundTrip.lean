import Thos.Registry.Hive

/-!
# What a hive file gives back

`replay_recs` says that the records of a tree, replayed on a fresh key, rebuild the
tree. The reader does not replay them quite as they are: it parses each relative
path with `components`, which drops a leading `registry`. So a hive comes back
exactly when its root has no subkey of that name (`roundTrip_iff`).
-/

set_option autoImplicit false

namespace Thos.Registry

open Thos.Lib List OrdMap Key Rec

/-! ## Replaying the records of a tree -/

theorem replay_append (rs rs' : List Rec) (base : Key) :
    replay (rs ++ rs') base = replay rs' (replay rs base) :=
  foldl_append

theorem replay_cons (r : Rec) (rs : List Rec) (base : Key) :
    replay (r :: rs) base = replay rs (r.apply base) := rfl

/-- A record with `pre` put before its path. -/
def Rec.below (pre : List Bytes) : Rec → Rec
  | .key p => .key (pre ++ p)
  | .owner p uid => .owner (pre ++ p) uid
  | .value p name v => .value (pre ++ p) name v

theorem recs_below (k : Key) : ∀ pre path : List Bytes,
    recs k (pre ++ path) = (recs k path).map (below pre) := by
  induction k using induct with
  | h subs vals uid ih =>
    intro pre path
    have hsub : ∀ l : List (Bytes × Key), (∀ p ∈ l, p ∈ subs) →
        recsSubkeys l (pre ++ path) = (recsSubkeys l path).map (below pre) := by
      intro l hl
      induction l with
      | nil => rfl
      | cons p rest ihl =>
        have hhead := ih p (hl p mem_cons_self) pre (path ++ [p.1])
        have hrest := ihl fun q hq => hl q (mem_cons_of_mem _ hq)
        simp only [recsSubkeys, append_assoc, hrest, cons_append, map_cons, map_append, below]
        rw [hhead]
    rw [recs, recs, hsub subs fun p hp => hp]
    split_ifs <;> simp [below]

theorem replay_below (rs : List Rec) (base : Key) (path : List Bytes) (f : Key → Key) :
    replay (rs.map (below path)) (make base path 0 f) =
      make base path 0 fun k => replay rs (f k) := by
  induction rs generalizing f with
  | nil => rfl
  | cons r rs ih =>
    have hstep : (r.below path).apply (make base path 0 f) =
        make base path 0 fun k => r.apply (f k) := by
      cases r <;> exact make_make_append base path _ 0 f _
    rw [map_cons, replay_cons, hstep, ih]
    rfl

theorem replay_values (subs : List (Bytes × Key)) (done vals : List (Bytes × Value))
    (uid : UInt32) (h : OrdMap.Ascending (done ++ vals)) :
    replay (vals.map fun p => .value [] p.1 p.2) (.mk subs done uid) =
      .mk subs (done ++ vals) uid := by
  induction vals generalizing done with
  | nil => simp [replay]
  | cons p vals ih =>
    have hins : insert p.1 p.2 done = done ++ [p] := insert_eq_append (fun q hq =>
        (pairwise_append.1 h).2.2 q hq p mem_cons_self) p.2
    rw [map_cons, replay_cons, apply, make_nil, insertValue, hins,
      ih (done ++ [p]) (by simpa using h)]
    simp

theorem replay_recs {k : Key} (hk : k.Wf) : replay (recs k []) new = k := by
  induction k using induct with
  | h subs vals uid ih =>
    cases hk with
    | mk _ hsubs _ hwf hvals _ =>
      have howner : replay (if uid = 0 then [] else [.owner [] uid]) new = .mk [] [] uid := by
        split_ifs with h
        · rw [h]
          rfl
        · rfl
      -- the subkeys already rebuilt come before those still to be read
      have hrest : ∀ done rest : List (Bytes × Key), (∀ p ∈ rest, p ∈ subs) →
          OrdMap.Ascending (done ++ rest) →
          replay (recsSubkeys rest []) (.mk done vals uid) = .mk (done ++ rest) vals uid := by
        intro done rest
        induction rest generalizing done with
        | nil => simp [recsSubkeys, replay]
        | cons p rest ihr =>
          intro hmem hasc
          have hlt : ∀ q ∈ done, compare q.1 p.1 = .lt := fun q hq =>
            (pairwise_append.1 hasc).2.2 q hq p mem_cons_self
          have hget : get? p.1 done = none := get?_eq_none_of_lt hlt
          have hchild : replay (recs p.2 [p.1]) (make (.mk done vals uid) [p.1] 0 id) =
              .mk (done ++ [p]) vals uid := by
            have hbelow := recs_below p.2 [p.1] []
            rw [append_nil] at hbelow
            rw [hbelow, replay_below]
            simp only [make, subkeys_mk, values_mk, ownerUid_mk, hget, Option.getD_none, id_eq]
            have hp := ih p (hmem p mem_cons_self) (hwf p (hmem p mem_cons_self))
            rw [show owned 0 = new from rfl, hp, insert_eq_append hlt]
          rw [recsSubkeys, cons_append, replay_cons, replay_append, nil_append, apply, hchild,
            ihr (done ++ [p]) (fun q hq => hmem q (mem_cons_of_mem _ hq)) (by simpa using hasc)]
          simp
      rw [recs, replay_append, replay_append, howner, replay_values [] [] vals uid
        (by simpa using hvals), nil_append, hrest [] subs (fun p hp => hp) (by simpa using hsubs)]
      simp

/-! ## Paths that are parsed again -/

theorem find_of_mem_recs {k : Key} (hk : k.Wf) : ∀ {path : List Bytes} {r : Rec},
    r ∈ recs k path → ∃ q, r.path = path ++ q ∧ (find k q).isSome := by
  induction k using induct with
  | h subs vals uid ih =>
    intro path r hr
    cases hk with
    | mk _ hsubs _ hwf _ _ =>
      have hsub : ∀ l : List (Bytes × Key), (∀ p ∈ l, p ∈ subs) → r ∈ recsSubkeys l path →
          ∃ q, r.path = path ++ q ∧ (find (.mk subs vals uid) q).isSome := by
        intro l hl
        induction l with
        | nil => simp [recsSubkeys]
        | cons p rest ihl =>
          have hp := hl p mem_cons_self
          have hget : get? p.1 subs = some p.2 := get?_of_mem hsubs hp
          intro hr
          simp only [recsSubkeys, cons_append, mem_cons, mem_append] at hr
          rcases hr with rfl | hr | hr
          · exact ⟨[p.1], rfl, by simp [find, hget]⟩
          · obtain ⟨q, hq, hfind⟩ := ih p hp (hwf p hp) hr
            exact ⟨p.1 :: q, by simpa using hq, by simpa [find, hget] using hfind⟩
          · exact ihl (fun q hq => hl q (mem_cons_of_mem _ hq)) hr
      simp only [recs, mem_append, mem_map] at hr
      rcases hr with (hr | ⟨p, hp, rfl⟩) | hr
      · split_ifs at hr with huid
        · simp at hr
        · rw [mem_singleton.1 hr]
          exact ⟨[], by simp [Rec.path], rfl⟩
      · exact ⟨[], by simp [Rec.path], rfl⟩
      · exact hsub subs (fun p hp => hp) hr

theorem find_replay_isSome {rs : List Rec} {base : Key} {p : List Bytes}
    (h : (find (replay rs base) p).isSome) : (find base p).isSome ∨ ∃ r ∈ rs, p <+: r.path := by
  induction rs generalizing base with
  | nil => exact .inl h
  | cons r rs ih =>
    rcases ih h with h | ⟨r', hr', hp⟩
    · have happly : (find base p).isSome ∨ p <+: r.path := by
        cases r <;> exact find_make_isSome (find_isSome_of_subkeys fun k => by simp) h
      rcases happly with h | h
      · exact .inl h
      · exact .inr ⟨r, mem_cons_self, h⟩
    · exact .inr ⟨r', mem_cons_of_mem _ hr', hp⟩

theorem path_reparse (r : Rec) : r.reparse.path = stripRegistry r.path := by
  cases r <;> rfl

theorem exists_find_replicate_eq_none (c : Bytes) :
    ∀ k : Key, ∃ n, find k (List.replicate n c) = none := by
  intro k
  induction k using induct with
  | h subs vals uid ih =>
    cases hget : get? c subs with
    | none => exact ⟨1, by simp [replicate_succ, find, hget]⟩
    | some sub =>
      obtain ⟨n, hn⟩ := ih (c, sub) (mem_of_get? hget)
      exact ⟨n + 1, by simpa [replicate_succ, find, hget] using hn⟩

theorem find_registry_of_reparse {k : Key} (hk : k.Wf) {n : Nat}
    (h : (find (replay ((recs k []).map reparse) new)
      (List.replicate (n + 1) (ascii "registry"))).isSome) :
    (find k (List.replicate (n + 2) (ascii "registry"))).isSome := by
  rcases find_replay_isSome h with h | ⟨r', hr', hpre⟩
  · simp [replicate_succ, find, new] at h
  · obtain ⟨r, hr, rfl⟩ := mem_map.1 hr'
    obtain ⟨q, hq, hfind⟩ := find_of_mem_recs hk hr
    rw [nil_append] at hq
    rw [path_reparse, hq] at hpre
    refine find_isSome_above ?_ hfind
    cases q with
    | nil => simp [stripRegistry, replicate_succ] at hpre
    | cons c q =>
      by_cases hc : c = ascii "registry"
      · subst hc
        rw [stripRegistry, head?_cons, if_pos rfl, tail_cons] at hpre
        exact cons_prefix_cons.2 ⟨rfl, hpre⟩
      · rw [stripRegistry, if_neg (by simpa using hc), replicate_succ, cons_prefix_cons] at hpre
        exact absurd hpre.1.symm hc

/-- A hive comes back from its file exactly when its root has no subkey named
`registry`. -/
theorem roundTrip_iff {k : Key} (hk : k.Wf) : deserializeHive new (serializeHive k) = some k ↔
      get? (ascii "registry") k.subkeys = none := by
  rw [deserializeHive_serializeHive hk, Option.some.injEq]
  constructor
  · intro heq
    by_contra hreg
    -- an equal tree would hold `registry` chains of every length
    have hchain : ∀ n, (find k (List.replicate (n + 1) (ascii "registry"))).isSome := by
      intro n
      induction n with
      | zero =>
        obtain ⟨sub, hsub⟩ := Option.ne_none_iff_exists'.1 hreg
        simp [find, hsub]
      | succ n ih =>
        rw [← heq] at ih
        exact find_registry_of_reparse hk ih
    obtain ⟨n, hn⟩ := exists_find_replicate_eq_none (ascii "registry") k
    have hlong := hchain n
    rw [replicate_succ', find_append, hn] at hlong
    simp at hlong
  · intro hreg
    have hsame : (recs k []).map reparse = recs k [] := by
      refine (map_congr_left fun r hr => ?_).trans (map_id _)
      obtain ⟨q, hq, hfind⟩ := find_of_mem_recs hk hr
      have hstrip : stripRegistry r.path = r.path := by
        rw [hq, nil_append]
        cases q with
        | nil => rfl
        | cons c q =>
          refine if_neg fun hc => ?_
          rw [head?_cons, Option.some.injEq] at hc
          simp [find, hc, hreg] at hfind
      cases r <;> simpa [reparse, path] using hstrip
    rw [hsame, replay_recs hk]

end Thos.Registry
