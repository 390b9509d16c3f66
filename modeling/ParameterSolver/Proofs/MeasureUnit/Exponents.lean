import ParameterSolver.MeasureUnit.Algebra
import ParameterSolver.Proofs.ValueSet.Dimensions
import ParameterSolver.Scalar.Machine

/-! The exponents of units form a group as far as they are in range. The range is symmetric, so every
unit has an inverse and what was multiplied can be divided again. Computed in 8 bits, with 32 bits in
between and a check at every dimension in turn, the exponents come out the same. -/

namespace ParameterSolver

namespace Dimension

theorem nodup_all : all.Nodup := by decide

end Dimension

namespace Exponents

variable {d : Dimension → ℤ}

theorem Fit.bounds (h : Fit d) (b : Dimension) : -127 ≤ d b ∧ d b ≤ 127 := by
  have hb := h b
  omega

theorem Fit.neg (h : Fit d) : Fit (-d) := fun b => by
  rw [Pi.neg_apply, Int.natAbs_neg]
  exact h b

theorem inRange_ofFn_iff : (ofFn d).inRange ↔ Fit d := by
  simp only [inRange_iff, get_ofFn, Fit]

/-- Writes one exponent after the other, up to the first one that fails. -/
def write {ε : Type} (f : Dimension → Int8 → Except ε Int8) (l : List Dimension)
    (e : Dimension → Int8) : Except ε (Dimension → Int8) :=
  l.foldlM (fun e b => do return Function.update e b (← f b (e b))) e

/-- If all dimensions fail in the same way, it does not matter which one fails first. -/
theorem write_eq {ε : Type} {f : Dimension → Int8 → Except ε Int8} {x : ε} :
    ∀ {l : List Dimension} {e : Dimension → Int8}, l.Nodup →
      (∀ b ∈ l, f b (e b) = if (d b).natAbs ≤ 127 then .ok (.ofInt (d b)) else .error x) →
      write f l e = if ∀ b ∈ l, (d b).natAbs ≤ 127
        then .ok (fun b => if b ∈ l then .ofInt (d b) else e b) else .error x
  | [], e, _, _ => by simp [write]; rfl
  | b :: l, e, hl, h => by
    obtain ⟨hb, hl⟩ := List.nodup_cons.1 hl
    have hstep : write f (b :: l) e = f b (e b) >>= fun k => write f l (Function.update e b k) := by
      simp [write]
    rw [hstep, h b List.mem_cons_self]
    by_cases hfit : (d b).natAbs ≤ 127
    · have hrest : ∀ b' ∈ l, f b' (Function.update e b (.ofInt (d b)) b') =
          if (d b').natAbs ≤ 127 then .ok (.ofInt (d b')) else .error x := fun b' hb' => by
        -- the exponents that are still to be written are as they were
        rw [Function.update_of_ne (ne_of_mem_of_not_mem hb' hb)]
        exact h b' (List.mem_cons_of_mem _ hb')
      rw [if_pos hfit]
      simp only [bind, Except.bind, List.forall_mem_cons, hfit, true_and, write_eq hl hrest]
      congr 2
      funext b'
      by_cases hb' : b' = b
      · subst hb'
        simp [hb]
      · simp [hb']
    · rw [if_neg hfit, if_neg fun hall => hfit (hall b List.mem_cons_self)]
      rfl

end Exponents

namespace MeasureUnit

variable {α : Type} [Scalar α] {u v w : MeasureUnit α}

/-- The exponents as the numbers of eight bits that hold them. -/
def bytes (u : MeasureUnit α) (b : Dimension) : Int8 := .ofInt (u.dims b)

/-- A result of 32 bits as an exponent. It has to fit into eight bits, and the least number of eight bits
is none. -/
def checkedExponent (u : MeasureUnit α) (k : Option Int32) : Except (SetError α) Int8 :=
  match k with
  | some k =>
    if k.toInt8.toInt32 = k ∧ k.toInt8 ≠ Int8.minValue then .ok k.toInt8
    else .error (.exponentOverflow u)
  | none => .error (.exponentOverflow u)

/-- The product of two numbers of 32 bits, if it is one. -/
def checkedMul (j k : Int32) : Option Int32 :=
  if (j * k).toInt = j.toInt * k.toInt then some (j * k) else none

/-- A unit with the exponents that a loop over the dimensions computes from those of `u`. -/
def deriveBytes (u : MeasureUnit α) (f : Dimension → Int8 → Option Int32) (scale : α) :
    Except (SetError α) (MeasureUnit α) := do
  let e ← Exponents.write (fun b k => u.checkedExponent (f b k)) Dimension.all u.bytes
  return ⟨.ofFn fun b => (e b).toInt, scale, none⟩

def combineBytes (u v : MeasureUnit α) (sign : Int32) : Except (SetError α) (MeasureUnit α) :=
  u.deriveBytes (fun b k => some (k.toInt32 + sign * (v.bytes b).toInt32))
    (u.scale * Scalar.powInt v.scale sign.toInt)

def powerBytes (u : MeasureUnit α) (n : Int32) : Except (SetError α) (MeasureUnit α) :=
  if n = 1 then .ok u
  else u.deriveBytes (fun _ k => checkedMul k.toInt32 n) (Scalar.powInt u.scale n.toInt)

omit [Scalar α] in
theorem toInt_bytes (hu : Exponents.Fit u.dims) (b : Dimension) : (u.bytes b).toInt = u.dims b := by
  have hb := hu.bounds b
  exact Int8.toInt_ofInt_of_le (by omega) (by omega)

omit [Scalar α] in
theorem checkedExponent_some (u : MeasureUnit α) (k : Int32) :
    u.checkedExponent (some k) =
      if k.toInt.natAbs ≤ 127 then .ok (.ofInt k.toInt) else .error (.exponentOverflow u) := by
  have hcond : (k.toInt8.toInt32 = k ∧ k.toInt8 ≠ Int8.minValue) ↔ k.toInt.natAbs ≤ 127 := by
    rw [← Int32.toInt_inj, ne_eq, ← Int8.toInt_inj, Int8.toInt_toInt32, Int32.toInt_toInt8,
      Int8.toInt_minValue, Int.bmod_def]
    have hlo := k.le_toInt
    have hhi := k.toInt_lt
    split_ifs <;> omega
  simp only [checkedExponent, hcond, Int8.ofInt_int32ToInt]

omit [Scalar α] in
/-- With a result of 32 bits that is exact where it counts, the loop computes what the sum over all
dimensions at once does. -/
theorem deriveBytes_eq {f : Dimension → Int8 → Option Int32} {d : Dimension → ℤ} {scale : α}
    (hnone : ∀ b, f b (u.bytes b) = none → 127 < (d b).natAbs)
    (hsome : ∀ b k, f b (u.bytes b) = some k → k.toInt = d b) :
    u.deriveBytes f scale = u.derive (.ofFn d) scale := by
  have hstep : ∀ b ∈ Dimension.all, u.checkedExponent (f b (u.bytes b)) =
      if (d b).natAbs ≤ 127 then .ok (.ofInt (d b)) else .error (.exponentOverflow u) := by
    intro b _
    cases hk : f b (u.bytes b) with
    | none => rw [if_neg (by have := hnone b hk; omega)]; rfl
    | some k => rw [checkedExponent_some, hsome b k hk]
  rw [deriveBytes, Exponents.write_eq Dimension.nodup_all hstep, derive]
  by_cases hfit : Exponents.Fit d
  · have hbytes : (Exponents.ofFn fun b => (Int8.ofInt (d b)).toInt) = .ofFn d :=
      congrArg Exponents.ofFn (funext fun b => by
        have hb := hfit.bounds b
        exact Int8.toInt_ofInt_of_le (by omega) (by omega))
    rw [if_pos fun b _ => hfit b, if_pos (Exponents.inRange_ofFn_iff.2 hfit)]
    simp only [bind, Except.bind, Dimension.mem_all, if_true, hbytes]
    rfl
  · rw [if_neg fun h => hfit fun b => h b b.mem_all, if_neg fun h => hfit (Exponents.inRange_ofFn_iff.1 h)]
    rfl

theorem combineBytes_eq (hu : Exponents.Fit u.dims) (hv : Exponents.Fit v.dims) {sign : Int32}
    (hsign : sign = 1 ∨ sign = -1) : u.combineBytes v sign = u.combine v sign.toInt := by
  refine deriveBytes_eq (fun b h => by cases h) fun b k h => ?_
  obtain rfl := Option.some.inj h
  have hub := hu.bounds b
  have hvb := hv.bounds b
  have hone : (1 : Int32).toInt = 1 := by decide
  have hneg : (-1 : Int32).toInt = -1 := by decide
  have hprod : (sign * (v.bytes b).toInt32).toInt = sign.toInt * v.dims b := by
    rw [Int32.toInt_mul, Int8.toInt_toInt32, toInt_bytes hv]
    rcases hsign with rfl | rfl
    · rw [hone, Int.bmod_eq_of_le] <;> omega
    · rw [hneg, Int.bmod_eq_of_le] <;> omega
  change _ = u.dims b + sign.toInt * v.dims b
  rw [Int32.toInt_add, Int8.toInt_toInt32, toInt_bytes hu, hprod]
  rcases hsign with rfl | rfl
  · rw [hone, Int.bmod_eq_of_le] <;> omega
  · rw [hneg, Int.bmod_eq_of_le] <;> omega

theorem powerBytes_eq (hu : Exponents.Fit u.dims) (n : Int32) :
    u.powerBytes n = u.power n.toInt := by
  have hn : n.toInt = 1 ↔ n = 1 := by
    rw [← Int32.toInt_inj]
    exact Iff.rfl
  unfold powerBytes power
  simp only [hn]
  refine ite_congr rfl (fun _ => rfl) fun _ => deriveBytes_eq (fun b h => ?_) fun b k h => ?_
  all_goals
    unfold checkedMul at h
    rw [Int8.toInt_toInt32, toInt_bytes hu] at h
    split_ifs at h with hmul
  · -- a product that takes more than 32 bits takes more than eight
    change 127 < (u.dims b * n.toInt).natAbs
    by_contra hle
    refine hmul ?_
    rw [Int32.toInt_mul, Int8.toInt_toInt32, toInt_bytes hu, Int.bmod_eq_of_le] <;> omega
  · obtain rfl := Option.some.inj h
    exact hmul

/-- The units that can be made: the named ones, their decimal multiples and coherent forms, and whatever
products, quotients and powers of units there are. -/
inductive Obtainable : MeasureUnit α → Prop
  | one : Obtainable one
  | base (d : Dimension) : Obtainable (base d)
  | hertz : Obtainable hertz
  | watt : Obtainable watt
  | volt : Obtainable volt
  | ohm : Obtainable ohm
  | farad : Obtainable farad
  | henry : Obtainable henry
  | percent : Obtainable percent
  | prefixed {a : MeasureUnit α} (p : SiPrefix) : Obtainable a → Obtainable (a.prefixed p)
  | coherent {a : MeasureUnit α} : Obtainable a → Obtainable a.coherent
  | mul {a b c : MeasureUnit α} : Obtainable a → Obtainable b → a.mul b = .ok c → Obtainable c
  | div {a b c : MeasureUnit α} : Obtainable a → Obtainable b → a.div b = .ok c → Obtainable c
  | power {a b : MeasureUnit α} (n : Int32) : Obtainable a → a.power n.toInt = .ok b → Obtainable b

/-- What an operation on `u` answers that asks for the exponents `d`: a unit with these exponents if they
are in range, and otherwise that there is none. -/
structure Answers (u : MeasureUnit α) (d : Dimension → ℤ) (r : Except (SetError α) (MeasureUnit α)) :
    Prop where
  succeeds_iff : (∃ w, r = .ok w) ↔ Exponents.Fit d
  dims_eq : ∀ w, r = .ok w → w.dims = d
  overflows : ¬ Exponents.Fit d → r = .error (.exponentOverflow u)

omit [Scalar α] in
theorem answers_derive (u : MeasureUnit α) (d : Dimension → ℤ) (scale : α) :
    u.Answers d (u.derive (.ofFn d) scale) where
  succeeds_iff := by
    refine ⟨fun ⟨w, hw⟩ => ?_, fun h => ⟨_, if_pos (Exponents.inRange_ofFn_iff.2 h)⟩⟩
    unfold derive at hw
    split_ifs at hw with h
    exact Exponents.inRange_ofFn_iff.1 h
  dims_eq w hw := by
    rw [dims, derive_eq_ok hw]
    exact funext (Exponents.get_ofFn d)
  overflows h := if_neg fun h' => h (Exponents.inRange_ofFn_iff.1 h')

omit [Scalar α] in
theorem Answers.fit {d : Dimension → ℤ} {r : Except (SetError α) (MeasureUnit α)}
    (h : u.Answers d r) (hw : r = .ok w) : Exponents.Fit w.dims := by
  rw [h.dims_eq w hw]
  exact h.succeeds_iff.1 ⟨w, hw⟩

theorem answers_mul (u v : MeasureUnit α) : u.Answers (u.dims + v.dims) (u.mul v) := by
  have hd : u.dims + v.dims = fun b => u.exponents.get b + 1 * v.exponents.get b := by
    funext b
    simp [dims]
  rw [hd]
  exact answers_derive u _ _

theorem answers_div (u v : MeasureUnit α) : u.Answers (u.dims - v.dims) (u.div v) := by
  have hd : u.dims - v.dims = fun b => u.exponents.get b + -1 * v.exponents.get b := by
    funext b
    simp [dims, sub_eq_add_neg]
  rw [hd]
  exact answers_derive u _ _

theorem answers_power (hu : Exponents.Fit u.dims) (n : ℤ) :
    u.Answers (fun b => u.dims b * n) (u.power n) := by
  unfold power
  split_ifs with hn
  · -- the first power is not checked, and need not be
    subst hn
    simp only [mul_one]
    exact ⟨⟨fun _ => hu, fun _ => ⟨u, rfl⟩⟩, fun w hw => by cases hw; rfl, fun h => absurd hu h⟩
  · exact answers_derive u _ _

theorem fit_of_obtainable (hu : u.Obtainable) : Exponents.Fit u.dims := by
  induction hu with
  | one => rw [dims_one]; exact Exponents.fit_zero
  | base d => cases d <;> exact Exponents.inRange_iff.1 rfl
  | hertz | watt | volt | ohm | farad | henry | percent => exact Exponents.inRange_iff.1 rfl
  | prefixed p _ ih => exact ih
  | coherent _ ih => rw [dims_coherent]; exact ih
  | mul _ _ hw => exact (answers_mul _ _).fit hw
  | div _ _ hw => exact (answers_div _ _).fit hw
  | power n _ hw ih => exact (answers_power ih _).fit hw

theorem exists_power_neg_one (hu : Exponents.Fit u.dims) :
    ∃ w, u.power (-1) = .ok w ∧ w.dims = -u.dims := by
  have hanswer := answers_power hu (-1)
  have hneg : (fun b => u.dims b * -1) = -u.dims := funext fun b => mul_neg_one _
  rw [hneg] at hanswer
  obtain ⟨w, hw⟩ := hanswer.succeeds_iff.2 hu.neg
  exact ⟨w, hw, hanswer.dims_eq w hw⟩

theorem exists_div_of_mul (hu : Exponents.Fit u.dims) (hw : u.mul v = .ok w) :
    ∃ w', w.div v = .ok w' ∧ w'.dims = u.dims := by
  have hanswer := answers_div w v
  rw [dims_of_mul hw, add_sub_cancel_right] at hanswer
  obtain ⟨w', hw'⟩ := hanswer.succeeds_iff.2 hu
  exact ⟨w', hw', hanswer.dims_eq w' hw'⟩

theorem dims_of_power_power (hu : Exponents.Fit u.dims) {m n : ℤ} {w' : MeasureUnit α}
    (hw : u.power m = .ok w) (hw' : w.power n = .ok w') : w'.dims = fun b => u.dims b * (m * n) := by
  have hanswer := answers_power hu m
  rw [(answers_power (hanswer.fit hw) n).dims_eq w' hw', hanswer.dims_eq w hw]
  exact funext fun b => mul_assoc _ _ _

/-- The exponents of units are integers from -127 to 127 that add up, as far as they stay there, and so
do those that are computed in bytes. Inverses always exist, division takes a factor away, and powers of
powers multiply. -/
theorem exponent_group (hu : u.Obtainable) (hv : v.Obtainable) :
    (∀ b, -127 ≤ u.exponents.get b ∧ u.exponents.get b ≤ 127) ∧
    u.Answers (u.dims + v.dims) (u.mul v) ∧
    u.Answers (u.dims - v.dims) (u.div v) ∧
    (∀ n : Int32, u.Answers (fun b => u.dims b * n.toInt) (u.power n.toInt)) ∧
    (u.combineBytes v 1 = u.mul v ∧ u.combineBytes v (-1) = u.div v ∧
      ∀ n : Int32, u.powerBytes n = u.power n.toInt) ∧
    (∃ w, u.power (-1) = .ok w ∧ w.dims = -u.dims) ∧
    (∀ w, u.mul v = .ok w → ∃ w', w.div v = .ok w' ∧ w'.dims = u.dims) ∧
    (∀ (m n : Int32) (w w' : MeasureUnit α), u.power m.toInt = .ok w → w.power n.toInt = .ok w' →
      w'.dims = fun b => u.dims b * (m.toInt * n.toInt)) := by
  have hfit := fit_of_obtainable hu
  have hfit' := fit_of_obtainable hv
  exact ⟨hfit.bounds, answers_mul u v, answers_div u v, fun n => answers_power hfit n.toInt,
    ⟨combineBytes_eq hfit hfit' (.inl rfl), combineBytes_eq hfit hfit' (.inr rfl),
      powerBytes_eq hfit⟩,
    exists_power_neg_one hfit, fun _ => exists_div_of_mul hfit,
    fun _ _ _ _ => dims_of_power_power hfit⟩

/-- The hundredth power of the metre is a unit, and so is its inverse, but its square is not. -/
theorem exponent_group_metre :
    ∃ u : MeasureUnit Float, (base .length).power 100 = .ok u ∧ u.Obtainable ∧
      u.mul u = .error (.exponentOverflow u) ∧ ∃ w, u.power (-1) = .ok w ∧ w.dims .length = -100 := by
  have hmetre : (base .length : MeasureUnit Float).Obtainable := .base .length
  obtain ⟨-, -, -, hpower, -⟩ := exponent_group hmetre hmetre
  obtain ⟨u, hu⟩ := (hpower 100).succeeds_iff.2 fun b => by cases b <;> decide
  have hlength : u.dims .length = 100 := congrFun ((hpower 100).dims_eq u hu) .length
  have hobtain : u.Obtainable := .power 100 hmetre hu
  obtain ⟨-, hmul, -, -, -, ⟨w, hw, hdims⟩, -⟩ := exponent_group hobtain hobtain
  refine ⟨u, hu, hobtain, hmul.overflows fun h => ?_, w, hw, ?_⟩
  · have hbad := h .length
    rw [Pi.add_apply, hlength] at hbad
    exact absurd hbad (by decide)
  · rw [hdims, Pi.neg_apply, hlength]

end MeasureUnit

end ParameterSolver
