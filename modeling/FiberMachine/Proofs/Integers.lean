import FiberMachine.Proofs.Bytes

/-!
# Ints in programs

An int is a word of 64 bits that stands for a number from `-2 ^ 63` to `2 ^ 63 - 1`. The operators compute with the numbers, and where the
result has no place in that range they take the one that differs from it by a multiple of `2 ^ 64`. Division drops the fraction, so a
remainder goes with the sign of the dividend; a shift is a multiplication or a division by a power of two, however large the power.
Division by zero and a shift by a negative amount are the only operations on two ints that have no result, apart from the operators that
are not for ints at all.
-/

namespace FiberMachine

open Heap

variable {h : Heap} {m m' : Machine} {c pc s t : Nat} {xs : List Nat} {a b : Int64} {op : BinaryOp}

/-! ### Shifts -/

theorem smod_word (nonneg : 0 ≤ b.toInt) (small : b.toInt < 64) : (b.toBitVec.smod 64).toNat = b.toInt.toNat := by
  have same : (b.toBitVec.smod 64).toInt = b.toBitVec.toInt := by
    rw [BitVec.toInt_smod]
    exact Int.fmod_eq_of_lt nonneg small
  rw [BitVec.eq_of_toInt_eq same]
  have cond := BitVec.toInt_eq_toNat_cond b.toBitVec
  rw [show b.toBitVec.toInt = b.toInt from rfl] at cond
  split at cond <;> omega

theorem toInt_shiftLeft (nonneg : 0 ≤ b.toInt) : (Machine.shiftLeft a b).toInt = (a.toInt * 2 ^ b.toInt.toNat).bmod (2 ^ 64) := by
  rw [Machine.shiftLeft]
  by_cases small : b < 64
  · have amount := smod_word nonneg (Int64.lt_iff_toInt_lt.mp small)
    have value : a.toInt = (a.toBitVec.toNat : Int).bmod (2 ^ 64) := BitVec.toInt_eq_toNat_bmod ..
    rw [if_pos small, value, Int.bmod_mul_bmod]
    show (a <<< b).toBitVec.toInt = _
    rw [Int64.toBitVec_shiftLeft, BitVec.shiftLeft_eq', amount, BitVec.toInt_shiftLeft, Nat.shiftLeft_eq]
    simp
  · have large : ¬b.toInt < 64 := fun lt => small (Int64.lt_iff_toInt_lt.mpr lt)
    obtain ⟨k, hk⟩ : ∃ k, b.toInt.toNat = 64 + k := ⟨b.toInt.toNat - 64, by omega⟩
    rw [if_neg small, hk, pow_add, ← mul_assoc, mul_comm a.toInt, mul_assoc]
    exact (Int.bmod_eq_zero_of_dvd (by simp)).symm

/-- From the last bit on only the sign is left. -/
theorem shifted_out (a : Int64) {k : Nat} (large : 63 ≤ k) : a.toInt / 2 ^ k = if a.toInt < 0 then -1 else 0 := by
  have low := a.le_toInt
  have high := a.toInt_lt
  have power : (2 : Int) ^ 63 ≤ 2 ^ k := by exact_mod_cast Nat.pow_le_pow_right Nat.two_pos large
  split
  next neg => exact Int.ediv_eq_neg_one_of_neg_of_le neg (by omega)
  next nonneg => exact Int.ediv_eq_zero_of_lt (by omega) (by omega)

theorem toInt_shiftRight (nonneg : 0 ≤ b.toInt) : (Machine.shiftRight a b).toInt = a.toInt.fdiv (2 ^ b.toInt.toNat) := by
  have shifted {n : Int64} (nonneg : 0 ≤ n.toInt) (small : n.toInt < 64) : (a >>> n).toInt = a.toInt / 2 ^ n.toInt.toNat := by
    show (a >>> n).toBitVec.toInt = _
    rw [Int64.toBitVec_shiftRight, BitVec.toInt_sshiftRight', smod_word nonneg small, Int.shiftRight_eq_div_pow]
    rfl
  rw [Int.fdiv_eq_ediv_of_nonneg _ (Int.pow_nonneg (by decide)), Machine.shiftRight]
  by_cases small : b < 64
  · rw [if_pos small, shifted nonneg (Int64.lt_iff_toInt_lt.mp small)]
  · have large : ¬b.toInt < 64 := fun lt => small (Int64.lt_iff_toInt_lt.mpr lt)
    rw [if_neg small, shifted (by decide) (by decide), shifted_out a (by decide), shifted_out a (by omega)]

/-! ### Quotient, remainder and order -/

theorem tmod_sign (x y : Int) : x.tmod y = 0 ∨ (x.tmod y).sign = x.sign := by
  rw [Int.sign_tmod]
  by_cases dvd : y ∣ x
  · exact .inl (Int.tmod_eq_zero_of_dvd dvd)
  · exact .inr (if_neg dvd)

theorem quotient_remainder (a b : Int64) : ((a / b).toInt * b.toInt + (a % b).toInt).bmod (2 ^ 64) = a.toInt := by
  rw [Int64.toInt_div, Int64.toInt_mod, ← Int.bmod_add_bmod, Int.bmod_mul_bmod, Int.bmod_add_bmod, Int.tdiv_mul_add_tmod]
  exact a.toInt_bmod

/-- Only one quotient is out of range. -/
theorem toInt_div_of_ne (other : a ≠ Int64.minValue ∨ b ≠ -1) : (a / b).toInt = a.toInt.tdiv b.toInt :=
  other.elim (Int64.toInt_div_of_ne_left a b) (Int64.toInt_div_of_ne_right a b)

theorem compare_toInt (a b : Int64) : compare a b = compare a.toInt b.toInt := by
  simp only [compare, compareOfLessAndEq, Int64.lt_iff_toInt_lt, Int64.toInt_inj]

/-- What a comparison of two numbers says about them. -/
def BinaryOp.ranks? (op : BinaryOp) (x y : Int) : Option Bool :=
  match op with
  | .eq => some (x = y)
  | .ne => some (x ≠ y)
  | .lt => some (x < y)
  | .le => some (x ≤ y)
  | .gt => some (y < x)
  | .ge => some (y ≤ x)
  | _ => none

theorem BinaryOp.holds_ranks (op : BinaryOp) (x y : Int) : op.holds? (compare x y) = op.ranks? x y := by
  have lt : compare x y = .lt ↔ x < y := compare_lt_iff_lt
  have gt : compare x y = .gt ↔ y < x := compare_gt_iff_gt
  have eq : compare x y = .eq ↔ x = y := compare_eq_iff_eq
  cases op <;> simp only [BinaryOp.holds?, BinaryOp.ranks?, ← not_lt, ← lt, ← gt, ← eq, ne_eq] <;> cases compare x y <;> rfl

namespace Machine

theorem comparison_ranks {v : Bool} (ranks : op.ranks? a.toInt b.toInt = some v) : onInts op a b = .ok (.bool v) := by
  have eq : onInts op a b = comparison op (compare a b) .int .int := by cases op <;> first | rfl | cases ranks
  rw [eq, comparison, compare_toInt, op.holds_ranks, ranks]

/-! ### The arithmetic of ints -/

/-- What a unary operator makes of an int. -/
def onInt (op : UnaryOp) (a : Int64) : Except MachineError Primitive :=
  match op with
  | .neg => .ok (.int (-a))
  | .bitNot => .ok (.int (~~~a))
  | .not => .error (.invalidOperands op.symbol [.int])

/-- The result is the int with the value `k`. -/
def Amounts (result : Except MachineError Primitive) (k : Int) : Prop := ∃ n : Int64, result = .ok (.int n) ∧ n.toInt = k

/-- Bit `i` of a word in two's complement. -/
def bit (n : Int64) (i : Nat) : Bool := n.toBitVec.getLsbD i

/-- The result is the int with the bits that `f` gives. -/
def HasBits (result : Except MachineError Primitive) (f : Nat → Bool) : Prop := ∃ n : Int64, result = .ok (.int n) ∧ ∀ i < 64, bit n i = f i

/-- The operators on `a` and `b` follow the arithmetic of two's complement with 64 bits. -/
structure TwosComplement (a b : Int64) : Prop where
  add : Amounts (onInts .add a b) ((a.toInt + b.toInt).bmod (2 ^ 64))
  sub : Amounts (onInts .sub a b) ((a.toInt - b.toInt).bmod (2 ^ 64))
  mul : Amounts (onInts .mul a b) ((a.toInt * b.toInt).bmod (2 ^ 64))
  neg : Amounts (onInt .neg a) ((-a.toInt).bmod (2 ^ 64))
  /-- The quotient is rounded toward zero. -/
  div : b ≠ 0 → a ≠ Int64.minValue ∨ b ≠ -1 → Amounts (onInts .div a b) (a.toInt.tdiv b.toInt)
  /-- The only quotient that is out of range wraps around to the dividend. -/
  overflow : a = Int64.minValue → b = -1 → Amounts (onInts .div a b) Int64.minValue.toInt
  /-- The remainder has the sign of the dividend, is smaller than the divisor, and makes up for what the division dropped. -/
  rem : b ≠ 0 → ∃ q r : Int64, onInts .div a b = .ok (.int q) ∧ onInts .rem a b = .ok (.int r) ∧
    (r.toInt = 0 ∨ r.toInt.sign = a.toInt.sign) ∧ r.toInt.natAbs < b.toInt.natAbs ∧ a.toInt = (q.toInt * b.toInt + r.toInt).bmod (2 ^ 64)
  divisionByZero : ∀ op, onInts op a b = .error .divisionByZero ↔ (op = .div ∨ op = .rem) ∧ b = 0
  shl : 0 ≤ b.toInt → Amounts (onInts .shl a b) ((a.toInt * 2 ^ b.toInt.toNat).bmod (2 ^ 64))
  /-- The quotient is rounded down. -/
  shr : 0 ≤ b.toInt → Amounts (onInts .shr a b) (a.toInt.fdiv (2 ^ b.toInt.toNat))
  negativeShift : ∀ op, onInts op a b = .error .negativeShift ↔ (op = .shl ∨ op = .shr) ∧ b.toInt < 0
  and : HasBits (onInts .and a b) fun i => bit a i && bit b i
  or : HasBits (onInts .or a b) fun i => bit a i || bit b i
  xor : HasBits (onInts .xor a b) fun i => bit a i != bit b i
  andNot : HasBits (onInts .andNot a b) fun i => bit a i && !bit b i
  bitNot : HasBits (onInt .bitNot a) fun i => !bit a i
  comparisons : ∀ op v, op.ranks? a.toInt b.toInt = some v → onInts op a b = .ok (.bool v)
  logical : ∀ op, op = .logicalAnd ∨ op = .logicalOr → onInts op a b = .error (.invalidOperands op.symbol [.int, .int])
  logicalNot : onInt .not a = .error (.invalidOperands UnaryOp.not.symbol [.int])

theorem onInts_div (nonzero : b ≠ 0) : onInts .div a b = .ok (.int (a / b)) := if_neg nonzero

theorem onInts_rem (nonzero : b ≠ 0) : onInts .rem a b = .ok (.int (a % b)) := if_neg nonzero

theorem shift_amount (nonneg : 0 ≤ b.toInt) : ¬b < 0 := fun neg => absurd (Int64.lt_iff_toInt_lt.mp neg) (not_lt.mpr nonneg)

/-- Comparisons and logical operators fail neither for a divisor nor for an amount. -/
theorem comparison_error {cause : MachineError} {order : Ordering} {l r : Tag} (failed : comparison op order l r = .error cause) :
    cause = notDefined op l r := by
  unfold comparison at failed
  split at failed
  · cases failed
  · exact (Except.error.inj failed).symm

theorem onInts_divisionByZero (op : BinaryOp) : onInts op a b = .error .divisionByZero ↔ (op = .div ∨ op = .rem) ∧ b = 0 := by
  have other {order : Ordering} : comparison op order .int .int ≠ .error .divisionByZero := fun failed => nomatch comparison_error failed
  cases op <;> simp [onInts, other, ite_eq_iff]

theorem onInts_negativeShift (op : BinaryOp) : onInts op a b = .error .negativeShift ↔ (op = .shl ∨ op = .shr) ∧ b.toInt < 0 := by
  have other {order : Ordering} : comparison op order .int .int ≠ .error .negativeShift := fun failed => nomatch comparison_error failed
  cases op <;> simp [onInts, other, ite_eq_iff, Int64.lt_iff_toInt_lt]

theorem twosComplement (a b : Int64) : TwosComplement a b where
  add := ⟨_, rfl, Int64.toInt_add ..⟩
  sub := ⟨_, rfl, Int64.toInt_sub ..⟩
  mul := ⟨_, rfl, Int64.toInt_mul ..⟩
  neg := ⟨_, rfl, Int64.toInt_neg a⟩
  div nonzero other := ⟨_, onInts_div nonzero, toInt_div_of_ne other⟩
  overflow := by
    rintro rfl rfl
    exact ⟨_, rfl, rfl⟩
  rem nonzero := by
    have size : b.toInt ≠ 0 := fun zero => nonzero (Int64.toInt_inj.mp zero)
    refine ⟨_, _, onInts_div nonzero, onInts_rem nonzero, ?_, ?_, (quotient_remainder a b).symm⟩
    · exact Int64.toInt_mod a b ▸ tmod_sign ..
    · rw [Int64.toInt_mod, Int.natAbs_tmod]
      exact Nat.mod_lt _ (Int.natAbs_pos.mpr size)
  divisionByZero := onInts_divisionByZero
  shl nonneg := ⟨_, if_neg (shift_amount nonneg), toInt_shiftLeft nonneg⟩
  shr nonneg := ⟨_, if_neg (shift_amount nonneg), toInt_shiftRight nonneg⟩
  negativeShift := onInts_negativeShift
  and := ⟨_, rfl, fun _ _ => BitVec.getLsbD_and⟩
  or := ⟨_, rfl, fun _ _ => BitVec.getLsbD_or⟩
  xor := ⟨_, rfl, fun _ _ => BitVec.getLsbD_xor⟩
  andNot := ⟨_, rfl, fun i hi => by simp [bit, hi]⟩
  bitNot := ⟨_, rfl, fun i hi => by simp [bit, hi]⟩
  comparisons _ _ := comparison_ranks
  logical := by rintro _ (rfl | rfl) <;> rfl
  logicalNot := rfl

/-! ### Instructions on ints -/

/-- The action fails with that error. -/
def Aborts {α : Type} (m : Machine) (action : MachineM α) (cause : MachineError) : Prop := ∃ m', action m = .error (.error cause) m'

/-- The object at `r` is the boxed result of an operator. -/
def Boxed (v : Primitive) (h : Heap) (r : Nat) : Prop :=
  match v with
  | .int n => h.IsBox r .int n.toUInt64
  | .float d => h.IsBox r .float d.bits
  | .bool p => h.IsBox r .bool p.toUInt64

/-- The instruction puts the result on the operand stack, if there is memory for it, or fails with the error. -/
def Responds (m : Machine) (c : Nat) (xs : List Nat) (action : MachineM Outcome) : Except MachineError Primitive → Prop
  | .ok v => m.Yields c xs action .proceed (Boxed v)
  | .error cause => m.Aborts action cause

theorem portable_boxed (v : Primitive) : Portable (Boxed v) := by
  cases v <;> exact portable_isBox rfl

theorem makes_boxed {h : Heap} (tidy : h.Tidy) (v : Primitive) : Delivers v.box h [] (Boxed v) := by
  cases v <;> exact tidy.makeScalar rfl _

theorem Aborts.execute {i : Instruction} {cause : MachineError} (aborts : m.Aborts (dispatch c pc i) cause) :
    m.Aborts (Machine.execute c pc i) cause := by
  obtain ⟨m', run⟩ := aborts
  exact ⟨m'.releaseRoots m.heap.temporaries.size, by simp only [Machine.execute, run]⟩

/-- An instruction that makes its result of the operands that it took responds with it. -/
theorem Responds.of_eq {i : Instruction} {action : MachineM Unit} {apply : MachineM Addr} {h' : Heap} (result : Except MachineError Primitive)
    (is : dispatch c pc i = proceeding action) (works : h'.Works c xs) (proceeds : Proceeds c xs m.heap h')
    (run : action m = (apply >>= push c) { m with heap := h' })
    (applied : apply { m with heap := h' } = (ofExcept result >>= fun v => (liftM v.box : MachineM Addr)) { m with heap := h' }) :
    m.Responds c xs (execute c pc i) result := by
  cases result with
  | ok v =>
    have eq : action m = load c v.box { m with heap := h' } := by
      rw [run, load, run_bind, run_bind, applied]
      rfl
    exact Yields.execute (portable_boxed v) (is ▸ .proceeding (.of_eq eq proceeds (.load works (portable_boxed v) (makes_boxed works.tidy v))))
  | error cause =>
    refine Aborts.execute ⟨{ m with heap := h' }, ?_⟩
    rw [is, proceeding, run_bind, run, run_bind, applied]
    rfl

theorem int_eq {x : Nat} {n : Int64} (tidy : h.Tidy) (box : h.IsBox x .int n.toUInt64) : Heap.tag x h = .ok .int ∧ Scalar.int x h = .ok n := by
  refine ⟨tidy.sound.tag_eq box.is, ?_⟩
  simp only [Scalar.int, HeapReader.run_bind, tidy.sound.read_eq box.is Nat.one_pos, box.word, HeapReader.run_pure]
  rfl

/-- A binary operator on two ints responds with what it makes of them. -/
theorem binary_responds (works : m.heap.Works c (xs ++ [s, t])) (left : m.heap.IsBox s .int a.toUInt64) (right : m.heap.IsBox t .int b.toUInt64)
    (op : BinaryOp) : m.Responds c xs (execute c pc (.binary op)) (onInts op a b) := by
  obtain ⟨h', works', proceeds, first, second, run⟩ := popTwo_eq works
  obtain ⟨tagLeft, valueLeft⟩ := int_eq works'.tidy (first _ (portable_isBox rfl) left)
  obtain ⟨tagRight, valueRight⟩ := int_eq works'.tidy (second _ (portable_isBox rfl) right)
  refine .of_eq _ rfl works' proceeds (run fun x y => applyBinary op x y >>= push c) ?_
  simp only [applyBinary, run_bind, run_reader, tagLeft, tagRight, valueLeft, valueRight]

/-- So does a unary operator. -/
theorem unary_responds (works : m.heap.Works c (xs ++ [s])) (operand : m.heap.IsBox s .int a.toUInt64) (op : UnaryOp) :
    m.Responds c xs (execute c pc (.unary op)) (onInt op a) := by
  obtain ⟨h', run, works', retains, -⟩ := pop_eq works
  obtain ⟨tag, value⟩ := int_eq works'.tidy (portable_isBox rfl works.tidy retains (works.operand (by simp)) operand)
  have run : execUnary c op m = (applyUnary op s >>= push c) { m with heap := h' } := by rw [execUnary, run_bind, run]
  refine .of_eq _ rfl works' (retains.proceeds works) run ?_
  cases op <;> simp only [applyUnary, run_bind, run_reader, tag, value, onInt] <;> rfl

end Machine

section
open Ideal
variable {w : World} {z : Store} {code : Array Instruction} {config : Config} {journal : Journal} {history : List Entry} {x : Execution}

theorem Rep.isInt {r : Addr} (rep : Rep w z h) (typed : z.Typed) (holds : h.Holds r .int) : ∃ n : Int64, h.IsBox r .int n.toUInt64 := by
  obtain ⟨q, o, home, ho, tag, has⟩ := rep.object_at holds (by decide)
  obtain ⟨u, found⟩ := typed.canonical ⟨o, ho, tag⟩
  cases ho.symm.trans found
  exact ⟨u.toInt64, has.2.1, has.2.2⟩

/-- In every state of a run each int in use stands for a number. -/
theorem Run.isInt (run : Run code config journal history x) {r : Addr} (holds : x.machine.heap.Holds r .int) :
    ∃ n : Int64, x.machine.heap.IsBox r .int n.toUInt64 := by
  obtain ⟨w, t, log, followed⟩ := run.followed
  exact followed.sim.machine.rep.isInt followed.steady.linked.typed holds

end

namespace Machine

/-- Ints follow the arithmetic of two's complement. In every state of a run each int in use stands for a number of 64 bits, and each context
has operands that its instructions can take. A binary operator on two ints, and a unary one on an int, replaces them by a box with what it
makes of their numbers, if there is memory for it, or aborts the program with the error; and whatever the two numbers are, what the
operators make of them is the exact result reduced to 64 bits. -/
theorem ints_are_twos_complement :
    (∀ {code config journal history x}, Run code config journal history x →
      (∀ c ∈ x.machine.heap.contexts, ∃ xs, Context.operands c x.machine.heap = .ok xs ∧ x.machine.heap.Works c xs) ∧
      ∀ r, x.machine.heap.Holds r .int → ∃ n : Int64, x.machine.heap.IsBox r .int n.toUInt64) ∧
    (∀ {m : Machine} {c pc s t : Nat} {xs : List Nat} {a b : Int64}, m.heap.Works c (xs ++ [s, t]) →
      m.heap.IsBox s .int a.toUInt64 → m.heap.IsBox t .int b.toUInt64 →
      ∀ op, m.Responds c xs (execute c pc (.binary op)) (onInts op a b)) ∧
    (∀ {m : Machine} {c pc s : Nat} {xs : List Nat} {a : Int64}, m.heap.Works c (xs ++ [s]) → m.heap.IsBox s .int a.toUInt64 →
      ∀ op, m.Responds c xs (execute c pc (.unary op)) (onInt op a)) ∧
    ∀ a b : Int64, TwosComplement a b :=
  ⟨fun run => ⟨fun _ => run.works, fun _ => run.isInt⟩, fun works left right => binary_responds works left right,
    fun works operand => unary_responds works operand, twosComplement⟩

/-- Puts the least int on the operand stack, and minus one above it. -/
def extremes : Array Instruction := #[.loadInt Int64.minValue, .loadInt (-1), .done]

/-- The least int is divided by minus one and cannot be shifted by it, and the one on top is negated. -/
theorem ints_are_twos_complement_extremes :
    ∃ (history : List Entry) (x : Execution), Run extremes { heapWords := 256 } (.start none) history x ∧
      (x.machine.Yields 32 [] (execute 32 2 (.binary .div)) .proceed fun h r => h.IsBox r .int Int64.minValue.toUInt64) ∧
      x.machine.Aborts (execute 32 2 (.binary .shr)) .negativeShift ∧
      (x.machine.Yields 32 [40] (execute 32 2 (.unary .neg)) .proceed fun h r => h.IsBox r .int 1) ∧
      Amounts (onInts .div Int64.minValue (-1)) Int64.minValue.toInt := by
  obtain ⟨inRun, binary, unary, laws⟩ := ints_are_twos_complement
  obtain ⟨history, x, run, found⟩ := Run.of_follow (P := fun _ x => (fun h : Heap => decide (32 ∈ h.contexts ∧
    (Context.operands 32 h).toOption = some [40, 42] ∧ h.Is 40 .int 1 ∧ h.cell 40 0 = Int64.minValue.toUInt64 ∧ h.Is 42 .int 1 ∧
    h.cell 42 0 = (-1 : Int64).toUInt64)) x.machine.heap) extremes { heapWords := 256 } (.start none) 2 (by decide +kernel)
  obtain ⟨registered, operands, isLeft, left, isRight, right⟩ := of_decide_eq_true found
  obtain ⟨xs, read, works⟩ := (inRun run).1 32 registered
  cases read.symm.trans (toOption_eq operands)
  have pair : x.machine.heap.Works 32 ([] ++ [40, 42]) := works
  have top : x.machine.heap.Works 32 ([40] ++ [42]) := works
  exact ⟨history, x, run, binary pair ⟨isLeft, left⟩ ⟨isRight, right⟩ .div, binary pair ⟨isLeft, left⟩ ⟨isRight, right⟩ .shr,
    unary top ⟨isRight, right⟩ .neg, (laws _ _).overflow rfl rfl⟩

end Machine

end FiberMachine
