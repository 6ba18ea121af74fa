import Mathlib.Algebra.Order.Ring.Nat
import Mathlib.Data.Finset.Card
import Mathlib.Data.Finset.Range
import BinaryStream.ZeroCount

/-!
Sampled zeros by their places. A sample at a stride sees the places that are multiples of it, so the
samples of all columns see every place once, and a sample of two blocks goes on in the second where
the first leaves it. All are inductions along the sample, one byte and the gap behind it at a time.
-/
namespace BinaryStream

theorem sampleZeroes_cons (gap : Nat) (b : UInt8) (rest : List UInt8) :
    sampleZeroes gap (b :: rest) =
      (if b = 0 then 1 else 0) + sampleZeroes gap (rest.drop gap) := by
  rw [sampleZeroes]

/-- A gap that reaches the end leaves the first byte only. -/
theorem sampleZeroes_of_length_le {gap : Nat} {bytes : List UInt8}
    (short : bytes.length ≤ gap + 1) :
    sampleZeroes gap bytes = if bytes.head? = some 0 then 1 else 0 := by
  cases bytes with
  | nil => simp [sampleZeroes]
  | cons b rest =>
    rw [List.length_cons] at short
    have beyond : rest.drop gap = [] := List.drop_of_length_le (by omega)
    simp [sampleZeroes_cons, beyond, sampleZeroes]

/-- The zeros at the multiples of the stride; places behind the end hold none. -/
theorem sampleZeroes_eq_countP (gap : Nat) (bytes : List UInt8) {bound : Nat}
    (enough : bytes.length ≤ bound) :
    sampleZeroes gap bytes =
      (List.range bound).countP fun i => bytes[i * (gap + 1)]? = some 0 := by
  fun_induction sampleZeroes gap bytes generalizing bound with
  | case1 => simp
  | case2 b rest ih =>
    rw [List.length_cons] at enough
    obtain ⟨n, rfl⟩ : ∃ n, bound = n + 1 := ⟨bound - 1, by omega⟩
    have behind : ∀ i, (b :: rest)[(i + 1) * (gap + 1)]? = (rest.drop gap)[i * (gap + 1)]? := by
      intro i
      rw [Nat.succ_mul, ← Nat.add_assoc, List.getElem?_cons_succ, List.getElem?_drop, Nat.add_comm]
    have shorter : (rest.drop gap).length ≤ n := by
      rw [List.length_drop]
      omega
    rw [ih shorter, List.range_succ_eq_map, List.countP_cons, List.countP_map, Nat.add_comm]
    simp only [Function.comp_def, behind, Nat.zero_mul, List.getElem?_cons_zero, Option.some.injEq,
      decide_eq_true_eq]

theorem sampleZeroes_zero (bytes : List UInt8) : sampleZeroes 0 bytes = bytes.count 0 := by
  induction bytes with
  | nil => rw [sampleZeroes, List.count_nil]
  | cons b rest ih =>
    rw [sampleZeroes_cons, List.drop_zero, ih, List.count_cons, Nat.add_comm]
    simp only [beq_iff_eq]

/-- The columns of a table hold every byte once. A byte put in front is seen by the first column,
which goes on where the last one did; the others are moved up by one. -/
theorem sum_sampleZeroes_drop (gap : Nat) (bytes : List UInt8) :
    ((List.range (gap + 1)).map fun k => sampleZeroes gap (bytes.drop k)).sum = bytes.count 0 := by
  induction bytes with
  | nil => simp [sampleZeroes]
  | cons b rest ih =>
    have columns : ((List.range gap).map fun k => sampleZeroes gap (rest.drop k)).sum +
        sampleZeroes gap (rest.drop gap) = rest.count 0 := by
      rw [← ih, List.range_succ, List.map_append, List.sum_append, List.map_singleton,
        List.sum_singleton]
    rw [List.range_succ_eq_map, List.map_cons, List.sum_cons, List.map_map, List.drop_zero,
      sampleZeroes_cons, List.count_cons, ← columns]
    simp only [Function.comp_def, List.drop_succ_cons, beq_iff_eq]
    omega

/-- In a block behind another the sample starts at the first place that the stride reaches. -/
theorem sampleZeroes_append (gap : Nat) (bytes more : List UInt8) :
    sampleZeroes gap (bytes ++ more) = sampleZeroes gap bytes +
      sampleZeroes gap (more.drop ((gap + 1 - bytes.length % (gap + 1)) % (gap + 1))) := by
  fun_induction sampleZeroes gap bytes with
  | case1 => simp
  | case2 b rest ih =>
    rw [List.cons_append, sampleZeroes_cons, List.length_cons]
    by_cases within : gap ≤ rest.length
    · have same : (rest.length + 1) % (gap + 1) = (rest.length - gap) % (gap + 1) := by
        rw [← Nat.add_mod_right (rest.length - gap)]
        congr 1
        omega
      rw [List.drop_append_of_le_length within, ih, List.length_drop, same, Nat.add_assoc]
    · have short : rest.drop gap = [] := List.drop_of_length_le (by omega)
      have start : (gap + 1 - (rest.length + 1) % (gap + 1)) % (gap + 1) = gap - rest.length := by
        have inside : rest.length + 1 < gap + 1 := by omega
        rw [Nat.mod_eq_of_lt inside, Nat.mod_eq_of_lt (by omega)]
        omega
      rw [List.drop_append, short, List.nil_append, start, sampleZeroes, Nat.add_zero]

theorem countZeroes_of_pos (bytes : List UInt8) {stride : Nat} (positive : 0 < stride) :
    countZeroes bytes stride = .ok (sampleZeroes (stride - 1) bytes) :=
  if_neg (Nat.ne_of_gt positive)

/-- A count at a stride is the number of places `i` whose multiple `i * stride` lies in the block
and holds a zero. The columns of the block have as many zeros together as the block. A stride as
long as the block sees its first byte and no other; and a block behind another adds what is counted
in it from the first place on that the stride reaches there. -/
theorem countZeroes_partitions (bytes : List UInt8) {stride : Nat} (positive : 0 < stride) :
    (∃ places : Finset Nat,
      (∀ i, i ∈ places ↔ ∃ inside : i * stride < bytes.length, bytes[i * stride] = 0) ∧
      countZeroes bytes stride = .ok places.card) ∧
    List.sum <$> (List.range stride).mapM (fun k => countZeroes (bytes.drop k) stride) =
      countZeroes bytes 1 ∧
    (bytes.length ≤ stride →
      countZeroes bytes stride = .ok (if bytes.head? = some 0 then 1 else 0)) ∧
    ∀ more : List UInt8, countZeroes (bytes ++ more) stride =
      (· + ·) <$> countZeroes bytes stride <*>
        countZeroes (more.drop ((stride - bytes.length % stride) % stride)) stride := by
  have counts := fun block : List UInt8 => countZeroes_of_pos block positive
  obtain ⟨gap, rfl⟩ : ∃ gap, stride = gap + 1 := ⟨stride - 1, by omega⟩
  simp only [Nat.add_sub_cancel] at counts
  refine ⟨?_, ?_, ?_, ?_⟩
  · refine ⟨(Finset.range bytes.length).filter fun i => bytes[i * (gap + 1)]? = some 0, ?_, ?_⟩
    · intro i
      rw [Finset.mem_filter, Finset.mem_range, List.getElem?_eq_some_iff]
      constructor
      · exact And.right
      · rintro ⟨inside, zero⟩
        exact ⟨Nat.lt_of_le_of_lt (Nat.le_mul_of_pos_right i positive) inside, inside, zero⟩
    · rw [counts, sampleZeroes_eq_countP gap bytes (Nat.le_refl _), List.countP_eq_length_filter]
      rfl
  · have columns : (List.range (gap + 1)).mapM (fun k => countZeroes (bytes.drop k) (gap + 1)) =
        .ok ((List.range (gap + 1)).map fun k => sampleZeroes gap (bytes.drop k)) := by
      simp only [counts]
      exact List.mapM_pure
    rw [columns, countZeroes_of_pos bytes Nat.one_pos, Nat.sub_self, sampleZeroes_zero,
      ← sum_sampleZeroes_drop gap]
    rfl
  · intro short
    rw [counts, sampleZeroes_of_length_le short]
  · intro more
    rw [counts, counts, counts, sampleZeroes_append]
    rfl

/-- Three columns of ten bytes, the last row of which is not whole; a stride of the largest word;
and a block behind another that ends inside of a row. -/
theorem countZeroes_partitions_uneven :
    let table : List UInt8 := [0, 1, 0, 0, 0, 2, 3, 0, 0, 0]
    0 < 3 ∧ 0 < 0xFFFFFFFFFFFFFFFF ∧
      List.sum <$> (List.range 3).mapM (fun k => countZeroes (table.drop k) 3) =
        countZeroes table 1 ∧
      countZeroes table 0xFFFFFFFFFFFFFFFF = .ok 1 ∧
      countZeroes (table ++ [7, 0, 0]) 3 =
        (· + ·) <$> countZeroes table 3 <*> countZeroes [0] 3 := by
  intro table
  have three : 0 < 3 := by decide
  have large : 0 < 0xFFFFFFFFFFFFFFFF := by decide
  obtain ⟨-, columns, -, behind⟩ := countZeroes_partitions table three
  obtain ⟨-, -, first, -⟩ := countZeroes_partitions table large
  have start : (3 - table.length % 3) % 3 = 2 := by decide
  rw [start] at behind
  exact ⟨three, large, columns, first (by decide), behind [7, 0, 0]⟩

end BinaryStream
