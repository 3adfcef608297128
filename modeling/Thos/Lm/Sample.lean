import Mathlib.Tactic

/-!
# The generator of the sampler

xorshift64*, in `sample.rs` on `u64` and in `sample.py` on integers that are cut to 64 bits where
they can grow. Both draw the same numbers, and the state is never 0 (`rngs_agree`): none of the
three shifts takes another number to 0.
-/

set_option autoImplicit false

namespace Thos.Lm.Sample

/-- `Rng` of `sample.rs`. -/
structure Rng where
  state : UInt64

def Rng.new (seed : UInt64) : Rng := ⟨if seed = 0 then 0x9E3779B97F4A7C15 else seed⟩

def Rng.nextU64 (r : Rng) : UInt64 × Rng :=
  let x := r.state
  let x := x ^^^ (x >>> 12)
  let x := x ^^^ (x <<< 25)
  let x := x ^^^ (x >>> 27)
  (x * 0x2545F4914F6CDD1D, ⟨x⟩)

/-- The generator after `n` draws. -/
def Rng.after (r : Rng) : Nat → Rng
  | 0 => r
  | n + 1 => (r.after n).nextU64.2

/-- `Rng` of `sample.py`. -/
structure PyRng where
  s : Nat

def mask64 : Nat := (1 <<< 64) - 1

def PyRng.new (seed : Nat) : PyRng := ⟨if seed ≠ 0 then seed else 0x9E3779B97F4A7C15⟩

def PyRng.nextU64 (r : PyRng) : Nat × PyRng :=
  let x := r.s
  let x := x ^^^ (x >>> 12)
  let x := x ^^^ ((x <<< 25) &&& mask64)
  let x := x ^^^ (x >>> 27)
  ((x * 0x2545F4914F6CDD1D) &&& mask64, ⟨x⟩)

def PyRng.after (r : PyRng) : Nat → PyRng
  | 0 => r
  | n + 1 => (r.after n).nextU64.2

theorem nextU64_eq {r : Rng} {p : PyRng} (h : r.state.toNat = p.s) :
    r.nextU64.1.toNat = p.nextU64.1 ∧ r.nextU64.2.state.toNat = p.nextU64.2.s := by
  have hmask : ∀ x, x &&& mask64 = x % 2 ^ 64 := fun x => Nat.and_two_pow_sub_one_eq_mod x 64
  simp [Rng.nextU64, PyRng.nextU64, ← h, hmask]

theorem xor_shiftRight_ne_zero {x k : UInt64} (hx : x ≠ 0) (hk : k.toNat % 64 ≠ 0) :
    x ^^^ (x >>> k) ≠ 0 := by
  rw [Ne, UInt64.xor_eq_zero_iff, ← UInt64.toNat_inj, UInt64.toNat_shiftRight,
    Nat.shiftRight_eq_div_pow]
  have hpos := Nat.pos_of_ne_zero fun h0 => hx (UInt64.toNat_inj.1 h0)
  exact (Nat.div_lt_self hpos (Nat.one_lt_two_pow hk)).ne'

theorem xor_shiftLeft_ne_zero {x : UInt64} (hx : x ≠ 0) : x ^^^ (x <<< 25) ≠ 0 := by
  rw [Ne, UInt64.xor_eq_zero_iff]
  intro heq
  have hnat : x.toNat = x.toNat * 2 ^ 25 % 2 ^ 64 := by
    simpa [Nat.shiftLeft_eq] using congrArg UInt64.toNat heq
  -- `2 ^ 25 - 1` is odd, so it takes no smaller number to a multiple of `2 ^ 64`
  have hdvd : 2 ^ 64 ∣ x.toNat * (2 ^ 25 - 1) := by
    have h := Nat.dvd_sub_mod (n := 2 ^ 64) (x.toNat * 2 ^ 25)
    rwa [← hnat, ← Nat.mul_sub_one] at h
  have hdvd := Nat.Coprime.dvd_of_dvd_mul_right (by norm_num) hdvd
  exact hx (UInt64.toNat_inj.1 (Nat.eq_zero_of_dvd_of_lt hdvd x.toNat_lt))

theorem state_nextU64_ne_zero {r : Rng} (h : r.state ≠ 0) : r.nextU64.2.state ≠ 0 :=
  xor_shiftRight_ne_zero (xor_shiftLeft_ne_zero (xor_shiftRight_ne_zero h (by decide)))
    (by decide)

/-- Every draw of the two generators from one seed is the same, and the state is never 0. -/
theorem rngs_agree (seed : UInt64) (n : Nat) :
    ((Rng.new seed).after n).nextU64.1.toNat = ((PyRng.new seed.toNat).after n).nextU64.1 ∧
      ((Rng.new seed).after n).state ≠ 0 := by
  have hrun : ((Rng.new seed).after n).state.toNat = ((PyRng.new seed.toNat).after n).s ∧
      ((Rng.new seed).after n).state ≠ 0 := by
    induction n with
    | zero =>
      by_cases hseed : seed = 0
      · subst hseed
        exact ⟨rfl, by decide⟩
      · have hpos : seed.toNat ≠ 0 := fun h0 => hseed (UInt64.toNat_inj.1 h0)
        simp [Rng.after, Rng.new, PyRng.after, PyRng.new, hseed, hpos]
    | succ n ih => exact ⟨(nextU64_eq ih.1).2, state_nextU64_ne_zero ih.2⟩
  exact ⟨(nextU64_eq hrun.1).1, hrun.2⟩

end Thos.Lm.Sample
