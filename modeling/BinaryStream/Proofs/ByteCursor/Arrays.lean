import BinaryStream.Proofs.ByteCursor.Safety

/-!
Arrays and their elements. An array is read under one check of its whole size, which may be no word;
scalars that are read one after the other are checked each for itself. Both give the same values and
end in the same place where the window has room, and where it has none an array takes nothing while
single reads take as many values as there are.
-/
namespace BinaryStream

/-! Elements. -/

namespace Layout

theorem decodeAll_take (l : Layout) (n : Nat) (bytes : List UInt8) :
    l.decodeAll n (bytes.take (n * l.size)) = l.decodeAll n bytes := by
  induction n generalizing bytes with
  | zero => rfl
  | succ n ih =>
    have first : min l.size (n * l.size + l.size) = l.size := by omega
    rw [decodeAll, decodeAll, Nat.succ_mul, List.take_take, first, List.drop_take,
      Nat.add_sub_cancel, ih]

theorem getElem?_decodeAll (l : Layout) {i n : Nat} (inside : i < n) (bytes : List UInt8) :
    (l.decodeAll n bytes)[i]? = some (l.decode ((bytes.drop (i * l.size)).take l.size)) := by
  induction n generalizing i bytes with
  | zero => omega
  | succ n ih =>
    cases i with
    | zero => rw [Nat.zero_mul, List.drop_zero]; rfl
    | succ i =>
      rw [decodeAll, List.getElem?_cons_succ, ih (Nat.lt_of_succ_lt_succ inside), List.drop_drop,
        Nat.succ_mul, Nat.add_comm l.size]

end Layout

namespace ByteCursor

/-- Scalars of one layout read one after the other, up to the first that is refused. -/
def getEach (l : Layout) (count : Nat) : Action ByteCursor AccessError (List l.Value) :=
  Action.collect (fun _ => get l) (List.replicate count ())

theorem getEach_succ_of_value {l : Layout} {c d : ByteCursor} {value : l.Value}
    (answered : get l c = ⟨.value value, d, []⟩) (count : Nat) :
    getEach l (count + 1) c =
      ⟨(getEach l count d).outcome.map (value :: ·), (getEach l count d).state,
        (getEach l count d).events⟩ :=
  Action.collect_of_value (fun _ => get l) answered _

theorem getEach_succ_of_refused {l : Layout} {c : ByteCursor} {e : AccessError}
    (refused : get l c = Action.refuse e c) (count : Nat) :
    getEach l (count + 1) c = Action.refuse e c := by
  rw [getEach, List.replicate_succ, Action.collect, Action.bind_apply, refused]
  rfl

variable {c : ByteCursor}

namespace Framed

theorem getEach_of_room (h : Framed c) (l : Layout) {count : Nat}
    (room : c.position + count * l.size ≤ c.length) :
    getEach l count c = ⟨.value (l.decodeAll count (c.window.drop c.position)),
      { c with position := c.position + count * l.size }, []⟩ := by
  induction count generalizing c with
  | zero => rw [Nat.zero_mul, Nat.add_zero]; rfl
  | succ count ih =>
    rw [Nat.succ_mul] at room ⊢
    have first := h.get_apply l
    rw [if_pos (by omega)] at first
    have moved : Framed { c with position := c.position + l.size } := h.moved (by omega)
    have rest := ih moved (show c.position + l.size + count * l.size ≤ c.length by omega)
    have behind : c.position + l.size + count * l.size =
        c.position + (count * l.size + l.size) := by omega
    rw [getEach_succ_of_value first, rest, Layout.decodeAll, List.drop_drop]
    simp only [behind]
    rfl

/-- The reads take the `fit` scalars that there is room for and are refused at the next. -/
theorem getEach_of_no_room (h : Framed c) (l : Layout) {fit count : Nat}
    (room : c.position + fit * l.size ≤ c.length)
    (short : c.length < c.position + (fit + 1) * l.size) (more : fit < count) :
    getEach l count c =
      Action.refuse (.outOfRange (c.position + fit * l.size) l.size c.length)
        { c with position := c.position + fit * l.size } := by
  obtain ⟨count, rfl⟩ := Nat.exists_eq_succ_of_ne_zero (Nat.ne_zero_of_lt more)
  induction fit generalizing c count with
  | zero =>
    have refused := h.get_apply l
    rw [if_neg (by omega)] at refused
    rw [getEach_succ_of_refused refused, Nat.zero_mul, Nat.add_zero]
  | succ fit ih =>
    rw [Nat.succ_mul] at room ⊢
    rw [Nat.succ_mul, Nat.succ_mul] at short
    have first := h.get_apply l
    rw [if_pos (by omega)] at first
    have moved : Framed { c with position := c.position + l.size } := h.moved (by omega)
    obtain ⟨count, rfl⟩ := Nat.exists_eq_succ_of_ne_zero
      (Nat.ne_zero_of_lt (Nat.lt_of_succ_lt_succ more))
    have rest := ih moved (show c.position + l.size + fit * l.size ≤ c.length by omega)
      (show c.length < c.position + l.size + (fit + 1) * l.size by rw [Nat.succ_mul]; omega)
      count (Nat.lt_of_succ_lt_succ more)
    have behind : c.position + l.size + fit * l.size =
        c.position + (fit * l.size + l.size) := by omega
    rw [getEach_succ_of_value first, rest]
    simp only [behind]
    rfl

theorem getArray_of_room (h : Framed c) (l : Layout) {count : Nat}
    (room : c.position + count * l.size ≤ c.length) : getArray l count c = getEach l count c := by
  rw [h.getArray_apply, if_pos room, l.decodeAll_take, h.getEach_of_room l room]

theorem getArrayAt_of_room (h : Framed c) (l : Layout) {offset count : Nat}
    (room : offset + count * l.size ≤ c.length) :
    getArrayAt l offset count c = ⟨.value (l.decodeAll count (c.window.drop offset)), c, []⟩ := by
  rw [h.getArrayAt_apply, if_pos room, l.decodeAll_take]

/-- As many scalars as whole ones are left are read, and no more. -/
theorem getEach_of_remaining (h : Framed c) (l : Layout) {count : Nat}
    (short : ¬ c.position + count * l.size ≤ c.length) :
    let fit := c.remaining / l.size
    let s := { c with position := c.position + fit * l.size }
    getEach l fit c = ⟨.value (l.decodeAll fit (c.window.drop c.position)), s, []⟩ ∧
      getEach l count c =
        Action.refuse (.outOfRange (c.position + fit * l.size) l.size c.length) s := by
  intro fit s
  have here := h.remaining_add_position
  have whole : fit * l.size ≤ c.remaining := Nat.div_mul_le_self _ _
  have next : c.remaining < (fit + 1) * l.size := by
    rw [Nat.succ_mul]
    exact Nat.lt_div_mul_add l.size_pos
  have more : fit < count := by
    rw [Nat.div_lt_iff_lt_mul l.size_pos]
    omega
  exact ⟨h.getEach_of_room l (by omega), h.getEach_of_no_room l (by omega) (by omega) more⟩

end Framed

/-- A block holds an array exactly when it holds each element; where there is none, its place. -/
theorem array_inside_iff {size : Nat} (offset count length : Nat) :
    offset + count * size ≤ length ↔
      (∀ i < count, offset + i * size + size ≤ length) ∧ (count = 0 → offset ≤ length) := by
  constructor
  · intro inside
    refine ⟨fun i below => ?_, fun none => by omega⟩
    have upto : (i + 1) * size ≤ count * size := Nat.mul_le_mul_right size below
    rw [Nat.succ_mul] at upto
    omega
  · rintro ⟨each, place⟩
    cases count with
    | zero =>
      rw [Nat.zero_mul]
      exact place rfl
    | succ count =>
      rw [Nat.succ_mul, ← Nat.add_assoc]
      exact each count (Nat.lt_succ_self count)

namespace Framed

theorem getAt_answered_iff (h : Framed c) (l : Layout) (offset : Nat) :
    (∃ value, (getAt l offset c).outcome = .value value) ↔ offset + l.size ≤ c.length := by
  rw [h.getAt_apply]
  split <;> simp [*]

/-- An element of an array is the scalar at its place. -/
theorem getAt_element (h : Framed c) {l : Layout} {offset count i : Nat} {value : l.Value}
    (room : offset + count * l.size ≤ c.length)
    (found : (l.decodeAll count (c.window.drop offset))[i]? = some value) :
    getAt l (offset + i * l.size) c = ⟨.value value, c, []⟩ := by
  have below : i < count := by
    obtain ⟨below, -⟩ := List.getElem?_eq_some_iff.mp found
    rwa [l.length_decodeAll] at below
  have inside := ((array_inside_iff offset count c.length).mp room).1 i below
  rw [l.getElem?_decodeAll below, List.drop_drop] at found
  rw [h.getAt_apply, if_pos inside, Option.some.inj found]

end Framed

/-- An array at the position is read exactly when as many scalars can be read one after the other,
with the same values and to the same place. Otherwise it takes nothing and names the size of the
whole array, or the largest size where that is no word, while single reads take what whole scalars
there are before one is refused. An array elsewhere is the scalars at its element's places, and is
read exactly when each of them can be; one of no elements, where its place is in the window. -/
theorem arrays_read_scalars (held : InMemory c) (l : Layout) (count : Nat) :
    (let array := getArray l count c
      let fit := c.remaining / l.size
      let s := { c with position := c.position + fit * l.size }
      ((∃ values, array.outcome = .value values) ↔
        ∃ values, (getEach l count c).outcome = .value values) ∧
      (∀ values, array.outcome = .value values →
        values.length = count ∧ getEach l count c = array) ∧
      ((∀ values, array.outcome ≠ .value values) →
        array = Action.refuse (.outOfRange c.position (Size.reported (count * l.size)) c.length) c ∧
        (∃ values, values.length = fit ∧ getEach l fit c = ⟨.value values, s, []⟩) ∧
        getEach l count c =
          Action.refuse (.outOfRange (c.position + fit * l.size) l.size c.length) s)) ∧
    ∀ offset, let array := getArrayAt l offset count c
      ((∃ values, array.outcome = .value values) ↔
        (∀ i < count, ∃ value, (getAt l (offset + i * l.size) c).outcome = .value value) ∧
          (count = 0 → offset ≤ c.length)) ∧
      (∀ values, array.outcome = .value values →
        array.state = c ∧ values.length = count ∧ ∀ i value, values[i]? = some value →
          getAt l (offset + i * l.size) c = ⟨.value value, c, []⟩) ∧
      ((∀ values, array.outcome ≠ .value values) →
        array =
          Action.refuse (.outOfRange offset (Size.reported (count * l.size)) c.length) c) := by
  have h := held.framed
  constructor
  · intro array fit s
    by_cases room : c.position + count * l.size ≤ c.length
    · have same : array = getEach l count c := h.getArray_of_room l room
      have single := h.getEach_of_room l room
      rw [same, single]
      refine ⟨Iff.rfl, ?_, fun unanswered => absurd rfl (unanswered _)⟩
      rintro values ⟨⟩
      exact ⟨l.length_decodeAll _ _, rfl⟩
    · have refused := h.getArray_apply l count
      rw [if_neg room] at refused
      obtain ⟨taken, single⟩ := h.getEach_of_remaining l room
      have whole : array = _ := refused
      rw [whole, single]
      refine ⟨?_, nofun, fun _ => ⟨rfl, ⟨_, l.length_decodeAll _ _, taken⟩, rfl⟩⟩
      simp
  · intro offset array
    simp only [h.getAt_answered_iff, ← array_inside_iff]
    by_cases room : offset + count * l.size ≤ c.length
    · have read : array = _ := h.getArrayAt_of_room l room
      rw [read]
      refine ⟨by simp [room], ?_, fun unanswered => absurd rfl (unanswered _)⟩
      rintro values ⟨⟩
      exact ⟨rfl, l.length_decodeAll _ _, fun i value => h.getAt_element room⟩
    · have refused := h.getArrayAt_apply l offset count
      rw [if_neg room] at refused
      have whole : array = _ := refused
      rw [whole]
      exact ⟨by simp [room], nofun, fun _ => rfl⟩

/-- Three bytes for each element and one left over; the size of another array wraps to two. -/
theorem arrays_read_scalars_leftover :
    let c := ofBytes [1, 2, 3, 4, 5, 6, 7]
    let l : Layout := ⟨.little, .unsigned .w24⟩
    let many := 0x5555555555555556
    InMemory c ∧ getEach l 2 c = getArray l 2 c ∧
      getAt l 3 c = ⟨.value 0x060504, c, []⟩ ∧
      getArray l many c = Action.refuse (.outOfRange 0 0xFFFFFFFFFFFFFFFF 7) c ∧
      getEach l many c = Action.refuse (.outOfRange 6 3 7) { c with position := 6 } := by
  intro c l many
  have held : InMemory c := .whole (by decide)
  obtain ⟨⟨-, same, -⟩, elsewhere⟩ := arrays_read_scalars held l 2
  obtain ⟨⟨-, -, short⟩, -⟩ := arrays_read_scalars held l many
  have ends : (getArray l many c).outcome = .error (.outOfRange 0 0xFFFFFFFFFFFFFFFF 7) := by decide
  have size : Size.reported (many * l.size) = 0xFFFFFFFFFFFFFFFF := by decide
  have place : c.position + c.remaining / l.size * l.size = 6 := by decide
  obtain ⟨refused, -, single⟩ := short (by simp [ends])
  rw [size] at refused
  simp only [place] at single
  obtain ⟨-, -, element⟩ := (elsewhere 0).2.1 [0x030201, 0x060504] (by decide)
  exact ⟨held, (same [0x030201, 0x060504] (by decide)).2, element 1 0x060504 (by decide), refused,
    single⟩

end ByteCursor

end BinaryStream
