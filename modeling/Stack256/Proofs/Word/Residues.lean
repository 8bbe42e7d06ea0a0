import Mathlib
import Stack256.Proofs.Word.Place

/-!
# Stack256.Proofs.Word.Residues — the modular product at every digit

`mulModFrom a b m i` is the running result of the product once the digits of `b` from place `i` up
are read.  It is the residue of `a` times the number these digits write (`toNat_mulModFrom`), hence
below `m`, and so every sum of the loop is a sum of two residues below `m` (`exactSum_of_lt`).  With
the value at place zero this is `mulMod_exact`.
-/

namespace Stack256.Word

/-! ### The running result -/

variable {a b m : Word}

/-- The running result of the product once the digits of `b` from place `i` up are read. -/
def mulModFrom (a b m : Word) (i : ℕ) : Word :=
  ((digits b).take (digitCount b - i)).foldl (mulModStep (mod a m) m) 0

theorem mulModFrom_eq_foldFrom (i : ℕ) :
    mulModFrom a b m i = foldFrom (mulModStep (mod a m) m) 0 b i :=
  rfl

@[simp] theorem mulModFrom_digitCount : mulModFrom a b m (digitCount b) = 0 :=
  foldFrom_digitCount b

theorem mulModFrom_zero (hm : m ≠ 0) : mulModFrom a b m 0 = mulMod a b m := by
  rw [mulModFrom_eq_foldFrom, foldFrom_zero, mulMod, if_neg hm]

/-- Each place adds one step to the places above it. -/
theorem mulModFrom_eq_step {i : ℕ} (hi : i < digitCount b) :
    mulModFrom a b m i =
      mulModStep (mod a m) m (mulModFrom a b m (i + 1)) (b.getLsbD i) :=
  foldFrom_eq_step b hi

/-- The running result is the residue of `a` times the number read so far. -/
theorem toNat_mulModFrom (hm : m ≠ 0) {i : ℕ} (hi : i ≤ digitCount b) :
    (mulModFrom a b m i).toNat = a.toNat * (b.toNat >>> i) % m.toNat := by
  have ha : mod a m < m := lt_of_toNat_eq_mod hm (toNat_mod hm)
  have h := foldFrom_keeps (fun n (r : Word) => r.toNat = (mod a m).toNat * n % m.toNat)
    (fun _ _ d hr => toNat_mulModStep hm ha hr d) 0 (by simp) b hi
  rw [mulModFrom_eq_foldFrom, h, toNat_mod hm, Nat.mod_mul_mod]

/-! ### The sums of the loop -/

/-- Both terms are residues below `m`, and `addBelow` gives the residue of their exact sum. -/
def ExactSum (m x y : Word) : Prop :=
  x < m ∧ y < m ∧ (addBelow m x y).toNat = (x.toNat + y.toNat) % m.toNat

theorem exactSum_of_lt {x y : Word} (hx : x < m) (hy : y < m) : ExactSum m x y :=
  ⟨hx, hy, toNat_addBelow hx hy⟩

theorem ExactSum.addBelow_lt {x y : Word} (h : ExactSum m x y) (hm : m ≠ 0) :
    addBelow m x y < m :=
  lt_of_toNat_eq_mod hm h.2.2

/-- **Products.**  The product is the residue of the exact one; before place `i` the running result
is that of `a` times `b` without its `i` lowest places, and every sum of the loop is exact. -/
theorem mulMod_exact (a b m : Word) :
    (m = 0 → mulMod a b m = 0) ∧
    (m ≠ 0 →
      (mulMod a b m).toNat = a.toNat * b.toNat % m.toNat ∧
      (mod a m < m ∧ (mod a m).toNat = a.toNat % m.toNat) ∧
      (mulModFrom a b m (digitCount b) = 0 ∧ mulModFrom a b m 0 = mulMod a b m) ∧
      (∀ i ≤ digitCount b, mulModFrom a b m i < m ∧
        (mulModFrom a b m i).toNat = a.toNat * (b.toNat >>> i) % m.toNat) ∧
      ∀ i < digitCount b, let r := mulModFrom a b m (i + 1)
        mulModFrom a b m i = mulModStep (mod a m) m r (b.getLsbD i) ∧
        ExactSum m r r ∧ ExactSum m (addBelow m r r) (mod a m)) ∧
    ∀ x y, x < m → y < m → (addBelow m x y).toNat = (x.toNat + y.toNat) % m.toNat := by
  refine ⟨fun hm => if_pos hm, fun hm => ?_, fun _ _ => toNat_addBelow⟩
  have ha : mod a m < m := lt_of_toNat_eq_mod hm (toNat_mod hm)
  have hbelow : ∀ i ≤ digitCount b, mulModFrom a b m i < m := fun i hi =>
    lt_of_toNat_eq_mod hm (toNat_mulModFrom hm hi)
  refine ⟨toNat_mulMod hm, ⟨ha, toNat_mod hm⟩, ⟨mulModFrom_digitCount, mulModFrom_zero hm⟩,
    fun i hi => ⟨hbelow i hi, toNat_mulModFrom hm hi⟩,
    fun i hi => ⟨mulModFrom_eq_step hi, ?_⟩⟩
  have hr := hbelow (i + 1) hi
  have hdouble := exactSum_of_lt hr hr
  exact ⟨hdouble, exactSum_of_lt (hdouble.addBelow_lt hm) ha⟩

/-- Below the greatest modulus a doubled residue leaves the word range: `-2` and `-2` add to `-3`,
which is their exact sum less `2 ^ 256 - 1`. -/
theorem mulMod_exact_greatest :
    (-1 : Word) ≠ 0 ∧ 0 < digitCount 3 ∧ (-2 : Word) < -1 ∧
    mulModFrom (-2) 3 (-1) 1 = -2 ∧ BitVec.uaddOverflow (-2 : Word) (-2) = true ∧
    addBelow (-1) (-2) (-2) = -3 ∧
    (mulMod (-2) 3 (-1)).toNat = (-2 : Word).toNat * (3 : Word).toNat % (-1 : Word).toNat ∧
    (ExactSum (-1) (mulModFrom (-2) 3 (-1) 1) (mulModFrom (-2) 3 (-1) 1) ∧
      mulModFrom (-2) 3 (-1) 1 < -1) ∧
    (addBelow (-1) (-2) (-2)).toNat =
      ((-2 : Word).toNat + (-2 : Word).toNat) % (-1 : Word).toNat ∧
    mulMod (-2) 3 0 = 0 := by
  have hm : (-1 : Word) ≠ 0 := by decide
  have hdigit : 0 < digitCount 3 := by decide +kernel
  have hlt : (-2 : Word) < -1 := by decide
  obtain ⟨hproduct, -, -, hvalue, hsums⟩ := (mulMod_exact (-2) 3 (-1)).2.1 hm
  exact ⟨hm, hdigit, hlt, by decide +kernel, by decide +kernel, by decide +kernel, hproduct,
    ⟨(hsums 0 hdigit).2.1, (hvalue 1 hdigit).1⟩,
    (mulMod_exact (-2) 3 (-1)).2.2 _ _ hlt hlt, (mulMod_exact (-2) 3 0).1 rfl⟩

end Stack256.Word
