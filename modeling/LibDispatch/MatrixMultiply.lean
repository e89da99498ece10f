import LibDispatch.ForkJoin
import Mathlib.Algebra.BigOperators.Group.Finset.Basic
import Mathlib.Algebra.BigOperators.Ring.Finset
import Mathlib.Algebra.Order.Group.Int

/-!
# Matrix multiplication

The example that multiplies two matrices: one call of {lit}`do_matrix_multiply` for all rows, or
one task of a group for each band of rows.  A band has as many rows as the quotient of the rows by
the number of threads.

Main results:

- Theorem {lit}`multiplied_rows`: what {lit}`do_matrix_multiply` stores, and where.
- Theorem {lit}`foldl_bands`: the bands together end with the last whole band.
- Theorem {lit}`multi_thread_mat_mul`: on every backend the example computes what the bands
  compute one after the other, and it computes the product exactly when the number of threads
  divides the number of rows.
-/

namespace LibDispatch
namespace MatrixMultiply

/-! ## The program -/

/-- The three matrices of the example. -/
@[ext]
structure Matrices where
  inputMat1 : Nat → Nat → Int
  inputMat2 : Nat → Nat → Int
  outputMat : Nat → Nat → Int

/-- {lit}`worker_arg_t`. -/
structure WorkerArg where
  startRow : Nat
  endRow : Nat
deriving DecidableEq, Repr

/-- The entry in row {lit}`i` and column {lit}`j` after a store to it. -/
def storeEntry (mat : Nat → Nat → Int) (i j : Nat) (x : Int) : Nat → Nat → Int :=
  Function.update mat i (Function.update (mat i) j x)

/-- The body of the loops of {lit}`reset_matrices`. -/
def resetEntry (i : Nat) (m : Matrices) (j : Nat) : Matrices where
  inputMat1 := storeEntry m.inputMat1 i j 1
  inputMat2 := storeEntry m.inputMat2 i j 1
  outputMat := storeEntry m.outputMat i j 0

/-- {lit}`reset_matrices`. -/
def resetMatrices (rows columns : Nat) (m : Matrices) : Matrices :=
  (List.range rows).foldl (fun m i => (List.range columns).foldl (resetEntry i) m) m

/-- {lit}`verify_output`: the entries that it complains about. -/
def verifyOutput (rows columns : Nat) (m : Matrices) : List (Nat × Nat) :=
  (List.range rows).flatMap fun i =>
    ((List.range columns).filter fun j => m.outputMat i j ≠ rows).map fun j => (i, j)

/-- {lit}`output_mat[i][j] += input_mat1[i][k] * input_mat2[k][j]` -/
def multiplyAdd (i j : Nat) (m : Matrices) (k : Nat) : Matrices :=
  { m with
    outputMat := storeEntry m.outputMat i j
      (m.outputMat i j + m.inputMat1 i k * m.inputMat2 k j) }

/-- {lit}`do_matrix_multiply`. -/
def doMatrixMultiply (rows columns : Nat) (arg : WorkerArg) (m : Matrices) : Matrices :=
  (List.range' arg.startRow (arg.endRow - arg.startRow)).foldl (fun m i =>
    (List.range columns).foldl (fun m j => (List.range rows).foldl (multiplyAdd i j) m) m) m

/-- {lit}`args[i]` of {lit}`multi_thread_mat_mul`. -/
def bandArg (rows numThreads i : Nat) : WorkerArg where
  startRow := i * (rows / numThreads)
  endRow := i * (rows / numThreads) + rows / numThreads

/-! ## What the loops compute -/

section Loops

variable {rows columns : Nat} {m m' m'' : Matrices} {region region' : Nat → Nat → Prop}

theorem storeEntry_self (mat : Nat → Nat → Int) (i j : Nat) (x : Int) :
    storeEntry mat i j x i j = x := by
  simp [storeEntry]

theorem storeEntry_of_ne (mat : Nat → Nat → Int) {i j i' j' : Nat} (x : Int)
    (h : ¬ (i' = i ∧ j' = j)) : storeEntry mat i j x i' j' = mat i' j' := by
  unfold storeEntry
  by_cases hi : i' = i
  · subst hi
    rw [Function.update_self, Function.update_of_ne fun hj => h ⟨rfl, hj⟩]
  · rw [Function.update_of_ne hi]

/-- The products are added to the entries of the output in a region, and nothing else changes. -/
structure Multiplied (rows : Nat) (region : Nat → Nat → Prop) (m m' : Matrices) : Prop where
  inputMat1 : m'.inputMat1 = m.inputMat1
  inputMat2 : m'.inputMat2 = m.inputMat2
  inside : ∀ i j, region i j → m'.outputMat i j =
    m.outputMat i j + ∑ k ∈ Finset.range rows, m.inputMat1 i k * m.inputMat2 k j
  outside : ∀ i j, ¬ region i j → m'.outputMat i j = m.outputMat i j

theorem Multiplied.congr (h : Multiplied rows region m m')
    (hregion : ∀ i j, region i j ↔ region' i j) : Multiplied rows region' m m' :=
  ⟨h.inputMat1, h.inputMat2, fun i j hij => h.inside i j ((hregion i j).mpr hij),
    fun i j hij => h.outside i j fun hij' => hij ((hregion i j).mp hij')⟩

/-- The region says all. -/
theorem Multiplied.unique (h : Multiplied rows region m m') (h' : Multiplied rows region m m'') :
    m' = m'' := by
  refine Matrices.ext (h.inputMat1.trans h'.inputMat1.symm) (h.inputMat2.trans h'.inputMat2.symm) ?_
  funext i j
  by_cases hij : region i j
  · rw [h.inside i j hij, h'.inside i j hij]
  · rw [h.outside i j hij, h'.outside i j hij]

/-- Nothing is added in an empty region. -/
theorem multiplied_empty (rows : Nat) (m : Matrices) :
    Multiplied rows (fun _ _ => False) m m :=
  ⟨rfl, rfl, fun _ _ h => h.elim, fun _ _ _ => rfl⟩

/-- Two regions that do not overlap. -/
theorem Multiplied.trans (h : Multiplied rows region m m') (h' : Multiplied rows region' m' m'')
    (hdisjoint : ∀ i j, region i j → ¬ region' i j) :
    Multiplied rows (fun i j => region i j ∨ region' i j) m m'' := by
  refine ⟨h'.inputMat1.trans h.inputMat1, h'.inputMat2.trans h.inputMat2, fun i j hij => ?_,
    fun i j hij => ?_⟩
  · rcases hij with hij | hij
    · rw [h'.outside i j (hdisjoint i j hij), h.inside i j hij]
    · rw [h'.inside i j hij, h.outside i j fun hij' => hdisjoint i j hij' hij, h.inputMat1,
        h.inputMat2]
  · rw [h'.outside i j fun h => hij (Or.inr h), h.outside i j fun h => hij (Or.inl h)]

/-- A loop whose rounds have regions that do not overlap. -/
theorem multiplied_foldl {f : Matrices → Nat → Matrices} {region : Nat → Nat → Nat → Prop}
    (hf : ∀ x m, Multiplied rows (region x) m (f m x))
    (hdisjoint : ∀ x y, x ≠ y → ∀ i j, region x i j → ¬ region y i j) {xs : List Nat}
    (hnodup : xs.Nodup) (m : Matrices) :
    Multiplied rows (fun i j => ∃ x ∈ xs, region x i j) m (xs.foldl f m) := by
  induction xs generalizing m with
  | nil => simpa using multiplied_empty rows m
  | cons x xs ih =>
      rcases List.nodup_cons.mp hnodup with ⟨hx, hxs⟩
      have h := (hf x m).trans (ih hxs (f m x)) fun i j hij => by
        rintro ⟨y, hy, hij'⟩
        exact hdisjoint x y (fun heq => hx (heq ▸ hy)) i j hij hij'
      simpa using h

/-- The loop over {lit}`k`. -/
theorem multiplied_entry (rows i j : Nat) (m : Matrices) :
    Multiplied rows (fun i' j' => i' = i ∧ j' = j) m
      ((List.range rows).foldl (multiplyAdd i j) m) := by
  induction rows with
  | zero =>
      refine ⟨rfl, rfl, fun i' j' _ => ?_, fun _ _ _ => rfl⟩
      simp
  | succ rows ih =>
      rw [List.range_succ, List.foldl_append, List.foldl_cons, List.foldl_nil]
      refine ⟨ih.inputMat1, ih.inputMat2, fun i' j' hij => ?_, fun i' j' hij => ?_⟩
      · rcases hij with ⟨rfl, rfl⟩
        change storeEntry _ i' j' _ i' j' = _
        rw [storeEntry_self, ih.inside i' j' ⟨rfl, rfl⟩, ih.inputMat1, ih.inputMat2,
          Finset.sum_range_succ, add_assoc]
      · change storeEntry _ i j _ i' j' = _
        rw [storeEntry_of_ne _ _ hij, ih.outside i' j' hij]

/-- {lit}`do_matrix_multiply` adds the products to the entries in its rows. -/
theorem multiplied_rows (rows columns : Nat) (arg : WorkerArg) (m : Matrices) :
    Multiplied rows (fun i j => arg.startRow ≤ i ∧ i < arg.endRow ∧ j < columns) m
      (doMatrixMultiply rows columns arg m) := by
  have hcolumns : ∀ (i : Nat) (m : Matrices), Multiplied rows
      (fun i' j' => ∃ j ∈ List.range columns, i' = i ∧ j' = j) m
      ((List.range columns).foldl (fun m j => (List.range rows).foldl (multiplyAdd i j) m) m) :=
    fun i m => multiplied_foldl (fun j m => multiplied_entry rows i j m)
      (by rintro j j' hne i' j'' ⟨-, rfl⟩ ⟨-, rfl⟩; exact hne rfl) List.nodup_range m
  have hrows := multiplied_foldl hcolumns
    (by rintro i i' hne i'' j ⟨-, -, rfl, -⟩ ⟨-, -, rfl, -⟩; exact hne rfl)
    (List.nodup_range' (s := arg.startRow) (n := arg.endRow - arg.startRow)) m
  refine hrows.congr fun i j => ?_
  simp only [List.mem_range'_1, List.mem_range]
  constructor
  · rintro ⟨i', ⟨hlow, hhigh⟩, j', hj, rfl, rfl⟩
    exact ⟨hlow, by omega, hj⟩
  · rintro ⟨hlow, hhigh, hj⟩
    exact ⟨i, ⟨hlow, by omega⟩, j, hj, rfl, rfl⟩

/-- Tasks with rows of their own commute. -/
theorem doMatrixMultiply_comm (rows columns : Nat) {arg arg' : WorkerArg}
    (h : arg.endRow ≤ arg'.startRow) (m : Matrices) :
    doMatrixMultiply rows columns arg' (doMatrixMultiply rows columns arg m) =
      doMatrixMultiply rows columns arg (doMatrixMultiply rows columns arg' m) := by
  have hfirst := (multiplied_rows rows columns arg m).trans
    (multiplied_rows rows columns arg' (doMatrixMultiply rows columns arg m))
    fun i j hij hij' => by omega
  have hsecond := (multiplied_rows rows columns arg' m).trans
    (multiplied_rows rows columns arg (doMatrixMultiply rows columns arg' m))
    fun i j hij hij' => by omega
  exact hfirst.unique (hsecond.congr fun i j => or_comm)

/-- Each row belongs to one band at most. -/
theorem band_le (rows numThreads : Nat) {i j : Nat} (h : i < j) :
    (bandArg rows numThreads i).endRow ≤ (bandArg rows numThreads j).startRow := by
  change i * (rows / numThreads) + rows / numThreads ≤ j * (rows / numThreads)
  rw [← Nat.succ_mul]
  exact Nat.mul_le_mul_right _ h

/-- The tasks of {lit}`multi_thread_mat_mul` commute. -/
theorem band_comm (rows columns numThreads i j : Nat) (m : Matrices) :
    doMatrixMultiply rows columns (bandArg rows numThreads j)
        (doMatrixMultiply rows columns (bandArg rows numThreads i) m) =
      doMatrixMultiply rows columns (bandArg rows numThreads i)
        (doMatrixMultiply rows columns (bandArg rows numThreads j) m) := by
  rcases Nat.lt_trichotomy i j with h | rfl | h
  · exact doMatrixMultiply_comm rows columns (band_le rows numThreads h) m
  · rfl
  · exact (doMatrixMultiply_comm rows columns (band_le rows numThreads h) m).symm

/-- The bands together are the rows up to the last whole band. -/
theorem foldl_bands (rows columns numThreads : Nat) (m : Matrices) :
    (List.range numThreads).foldl
        (fun m i => doMatrixMultiply rows columns (bandArg rows numThreads i) m) m =
      doMatrixMultiply rows columns ⟨0, numThreads * (rows / numThreads)⟩ m := by
  have hbands := multiplied_foldl
    (fun i m => multiplied_rows rows columns (bandArg rows numThreads i) m)
    (fun i i' hne j k hj hj' => by
      rcases Nat.lt_or_gt_of_ne hne with h | h
      · have := band_le rows numThreads h
        omega
      · have := band_le rows numThreads h
        omega)
    (List.nodup_range (n := numThreads)) m
  refine hbands.unique ((multiplied_rows rows columns _ m).congr fun j k => ?_)
  simp only [List.mem_range, bandArg]
  generalize rows / numThreads = q
  constructor
  · rintro ⟨-, hj, hk⟩
    -- the row belongs to the band of its quotient
    have hq : 0 < q := Nat.pos_of_ne_zero fun hq => by simp [hq] at hj
    have hlt : j / q < numThreads := (Nat.div_lt_iff_lt_mul hq).mpr hj
    have hlow := Nat.div_mul_le_self j q
    have hhigh := Nat.lt_div_mul_add hq (a := j)
    exact ⟨j / q, hlt, hlow, hhigh, hk⟩
  · rintro ⟨i, hi, -, hj, hk⟩
    have hle : (i + 1) * q ≤ numThreads * q := Nat.mul_le_mul_right q hi
    rw [Nat.succ_mul] at hle
    exact ⟨Nat.zero_le j, by omega, hk⟩

end Loops

/-! ## What the output is verified for -/

section Output

variable {rows columns : Nat} {m : Matrices} {region : Nat → Nat → Prop}

/-- The entries in a region have the values of {lit}`reset_matrices`. -/
def IsReset (region : Nat → Nat → Prop) (m : Matrices) : Prop :=
  ∀ i j, region i j → m.inputMat1 i j = 1 ∧ m.inputMat2 i j = 1 ∧ m.outputMat i j = 0

/-- One round resets one entry more. -/
theorem IsReset.entry (h : IsReset region m) (i j : Nat) :
    IsReset (fun i' j' => region i' j' ∨ (i' = i ∧ j' = j)) (resetEntry i m j) := by
  intro i' j' hij
  by_cases heq : i' = i ∧ j' = j
  · rcases heq with ⟨rfl, rfl⟩
    exact ⟨storeEntry_self _ _ _ _, storeEntry_self _ _ _ _, storeEntry_self _ _ _ _⟩
  · simp only [resetEntry, storeEntry_of_ne _ _ heq]
    exact h i' j' (hij.resolve_right heq)

theorem IsReset.row (h : IsReset region m) (i columns : Nat) :
    IsReset (fun i' j' => region i' j' ∨ (i' = i ∧ j' < columns))
      ((List.range columns).foldl (resetEntry i) m) := by
  induction columns with
  | zero =>
      intro i' j' hij
      exact h i' j' (hij.resolve_right fun hlt => Nat.not_lt_zero j' hlt.2)
  | succ columns ih =>
      rw [List.range_succ, List.foldl_append, List.foldl_cons, List.foldl_nil]
      intro i' j' hij
      refine ih.entry i columns i' j' ?_
      rcases hij with hij | ⟨hi, hj⟩
      · exact Or.inl (Or.inl hij)
      · rcases Nat.lt_succ_iff_lt_or_eq.mp hj with hj | hj
        · exact Or.inl (Or.inr ⟨hi, hj⟩)
        · exact Or.inr ⟨hi, hj⟩

/-- {lit}`reset_matrices` resets the entries of the matrices. -/
theorem isReset_resetMatrices (rows columns : Nat) (m : Matrices) :
    IsReset (fun i j => i < rows ∧ j < columns) (resetMatrices rows columns m) := by
  induction rows with
  | zero => exact fun i j hij => absurd hij.1 (Nat.not_lt_zero i)
  | succ rows ih =>
      rw [resetMatrices, List.range_succ, List.foldl_append, List.foldl_cons, List.foldl_nil]
      rintro i j ⟨hi, hj⟩
      refine (IsReset.row ih rows columns) i j ?_
      rcases Nat.lt_succ_iff_lt_or_eq.mp hi with hi | hi
      · exact Or.inl ⟨hi, hj⟩
      · exact Or.inr ⟨hi, hj⟩

/-- {lit}`verify_output` complains about the entries that differ from the number of rows. -/
theorem mem_verifyOutput {i j : Nat} : (i, j) ∈ verifyOutput rows columns m ↔
    (i < rows ∧ j < columns) ∧ m.outputMat i j ≠ rows := by
  simp [verifyOutput, and_assoc]

/-- After the rows up to {lit}`n`, it complains about the rows that are left. -/
theorem mem_verifyOutput_rows (hcolumns : rows ≤ columns) (m : Matrices) (n : Nat) {i j : Nat} :
    (i, j) ∈ verifyOutput rows columns
        (doMatrixMultiply rows columns ⟨0, n⟩ (resetMatrices rows columns m)) ↔
      n ≤ i ∧ i < rows ∧ j < columns := by
  rw [mem_verifyOutput]
  have hreset := isReset_resetMatrices rows columns m
  have hrows := multiplied_rows rows columns ⟨0, n⟩ (resetMatrices rows columns m)
  by_cases hij : i < rows ∧ j < columns
  · by_cases hn : i < n
    · -- all products in the sum are 1
      have hsum : ∑ k ∈ Finset.range rows, (resetMatrices rows columns m).inputMat1 i k *
          (resetMatrices rows columns m).inputMat2 k j = rows := by
        rw [Finset.sum_congr rfl fun k hk => ?_, Finset.sum_const, Finset.card_range,
          nsmul_one]
        have hk' := Finset.mem_range.mp hk
        rw [(hreset i k ⟨hij.1, Nat.lt_of_lt_of_le hk' hcolumns⟩).1,
          (hreset k j ⟨hk', hij.2⟩).2.1, one_mul]
      have hvalue := hrows.inside i j ⟨Nat.zero_le i, hn, hij.2⟩
      rw [hsum, (hreset i j hij).2.2, zero_add] at hvalue
      simp [hvalue, Nat.not_le.mpr hn]
    · have hvalue := hrows.outside i j fun hin => hn hin.2.1
      rw [(hreset i j hij).2.2] at hvalue
      rw [hvalue]
      refine iff_of_true ⟨hij, ?_⟩ ⟨Nat.le_of_not_lt hn, hij⟩
      exact fun hzero => Nat.not_lt_zero i ((Int.natCast_eq_zero.mp hzero.symm) ▸ hij.1)
  · exact iff_of_false (fun h => hij h.1) fun h => hij h.2

/-- It has no complaints exactly when no row is left. -/
theorem verifyOutput_rows_eq_nil (hcolumns : rows ≤ columns) (m : Matrices) (n : Nat) :
    verifyOutput rows columns
        (doMatrixMultiply rows columns ⟨0, n⟩ (resetMatrices rows columns m)) = [] ↔
      rows ≤ n := by
  rw [List.eq_nil_iff_forall_not_mem]
  constructor
  · intro hnone
    by_contra hlt
    have hn := Nat.lt_of_not_le hlt
    refine hnone (n, 0) ((mem_verifyOutput_rows hcolumns m n).mpr ⟨Nat.le_refl n, hn, ?_⟩)
    exact Nat.lt_of_lt_of_le (Nat.zero_lt_of_lt hn) hcolumns
  · rintro hle ⟨i, j⟩ hij
    rcases (mem_verifyOutput_rows hcolumns m n).mp hij with ⟨hi, hi', -⟩
    omega

end Output

/-! ## One thread and many -/

/-- {lit}`single_thread_mat_mul`, up to the verification. -/
def singleThreadMatMul (rows columns : Nat) (m : Matrices) : Matrices :=
  doMatrixMultiply rows columns ⟨0, rows⟩ (resetMatrices rows columns m)

/-- The group of {lit}`multi_thread_mat_mul`. -/
def multiThreadGroup {γ : Type} (heap : Heap WorkerArg Matrices γ)
    (rows columns numThreads : Nat) : Option (Heap WorkerArg Matrices γ) :=
  addFunctions (dispatchGroupCreate heap 0 numThreads true) 0 (doMatrixMultiply rows columns)
    (bandArg rows numThreads) numThreads

theorem multiThreadGroup_filled {γ : Type} (heap : Heap WorkerArg Matrices γ)
    (rows columns numThreads : Nat) :
    ∃ heap', multiThreadGroup heap rows columns numThreads = some heap' ∧
      Filled heap' 0 numThreads true (doMatrixMultiply rows columns) (bandArg rows numThreads)
        numThreads :=
  addFunctions_filled (filled_zero heap 0 numThreads true _ _) (Nat.le_refl numThreads)

/-- The bands are all rows exactly when the number of threads divides the number of rows. -/
theorem rows_le_bands_iff (rows numThreads : Nat) :
    rows ≤ numThreads * (rows / numThreads) ↔ numThreads ∣ rows := by
  constructor
  · intro hle
    have hdiv := Nat.div_add_mod rows numThreads
    exact Nat.dvd_of_mod_eq_zero (by omega)
  · intro hdvd
    rw [Nat.mul_div_cancel' hdvd]

/-- The program that multiplies with a dispatch queue.  No assertion fails when the group is
filled.  After the wait, on every backend, with any number of workers and in any interleaving,
the output is verified except for the rows after the last whole band; and if there are no such
rows, that is, if the number of threads divides the number of rows, the matrices are those of the
single-threaded program. -/
theorem multi_thread_mat_mul {rows columns numThreads : Nat} (hthreads : 0 < numThreads)
    (hcolumns : rows ≤ columns) (base : Heap WorkerArg Matrices Unit) (m : Matrices) :
    ∃ heap, multiThreadGroup base rows columns numThreads = some heap ∧
      ∀ {b : Backend} {inOrder : Prop} {x : Matrices},
        Ran ⟨forkJoinCalls, heap⟩ (resetMatrices rows columns m) 2 b inOrder x →
        (∀ i j, (i, j) ∈ verifyOutput rows columns x ↔
          numThreads * (rows / numThreads) ≤ i ∧ i < rows ∧ j < columns) ∧
        (verifyOutput rows columns x = [] ↔ numThreads ∣ rows) ∧
        (numThreads ∣ rows → x = singleThreadMatMul rows columns m) := by
  rcases multiThreadGroup_filled base rows columns numThreads with ⟨heap, hadd, hfilled⟩
  refine ⟨heap, hadd, fun {b inOrder x} hran => ?_⟩
  have hx := fork_join hfilled hthreads hran
    (Or.inr fun i _ j _ u => band_comm rows columns numThreads i j u)
  rw [foldl_bands] at hx
  subst hx
  refine ⟨fun i j => mem_verifyOutput_rows hcolumns m _, ?_, fun hdvd => ?_⟩
  · rw [verifyOutput_rows_eq_nil hcolumns, rows_le_bands_iff]
  · rw [Nat.mul_div_cancel' hdvd, singleThreadMatMul]

/-! ## Two bands of one row -/

/-- Nothing is allocated. -/
def emptyHeap (γ : Type) : Heap WorkerArg Matrices γ :=
  ⟨fun _ => dispatchTaskInit (fun _ m => m) ⟨0, 0⟩ false, fun _ => ⟨0, false, []⟩⟩

/-- A group of two tasks, each with one row. -/
def twoBandsHeap (γ : Type) : Heap WorkerArg Matrices γ :=
  (multiThreadGroup (emptyHeap γ) 2 2 2).getD (emptyHeap γ)

/-- What a backend keeps with the tasks does not matter. -/
theorem twoBandsHeap_forget (γ : Type) : (twoBandsHeap γ).forget = twoBandsHeap Unit := by
  have htask : (twoBandsHeap γ).forget.task = (twoBandsHeap Unit).task := by
    funext t
    match t with
    | 0 => rfl
    | 1 => rfl
    | _ + 2 => rfl
  calc (twoBandsHeap γ).forget
      = ⟨(twoBandsHeap γ).forget.task, (twoBandsHeap Unit).group⟩ := rfl
    _ = twoBandsHeap Unit := by rw [htask]

/-- All entries are 0. -/
def zeroMatrices : Matrices :=
  ⟨fun _ _ => 0, fun _ _ => 0, fun _ _ => 0⟩

/-- Two workers in the FreeRTOS backend. -/
def twoBands : Rtos.DispatchConfig 2 WorkerArg Matrices where
  length := 2
  length_pos := Nat.two_pos
  threadCount_pos := Nat.two_pos
  threadCount_le := by decide
  prog := forkJoinCalls
  heap := twoBandsHeap Nat
  user := resetMatrices 2 2 zeroMatrices

/-- The client adds the group, both workers run a task, and the wait returns. -/
def twoBandsSchedule : List (Rtos.Party 2) :=
  List.flatten [List.replicate 8 .client, List.replicate 3 (.worker 1),
    List.replicate 8 (.worker 0), List.replicate 6 (.worker 1), List.replicate 6 .client]

theorem twoBands_run : (twoBands.system.run twoBands.system.init
    twoBandsSchedule).isSome = true := by
  decide +kernel

/-- The matrices after the wait are those of the single-threaded program. -/
theorem multi_thread_mat_mul_twoBands :
    ((twoBands.system.run twoBands.system.init twoBandsSchedule).get twoBands_run).user =
      singleThreadMatMul 2 2 zeroMatrices := by
  rcases multi_thread_mat_mul Nat.two_pos (Nat.le_refl 2) (emptyHeap Unit) zeroMatrices with
    ⟨heap, hheap, hmatrices⟩
  have heq : twoBandsHeap Unit = heap := by
    rw [twoBandsHeap, hheap]
    rfl
  subst heq
  refine (hmatrices (.rtos twoBands ?_ rfl
    (twoBands.system.reachable_get_run _ twoBands_run) (by decide +kernel))).2.2 (Nat.dvd_refl 2)
  change Program.mk forkJoinCalls (twoBandsHeap Nat).forget = _
  rw [twoBandsHeap_forget]

end MatrixMultiply
end LibDispatch
