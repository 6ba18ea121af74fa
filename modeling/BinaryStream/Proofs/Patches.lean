import BinaryStream.Proofs.LastWrite

/-!
Patches: payloads that are written at offsets of their own. Where their ranges have no byte in
common the order does not matter, although it decides which of them makes a buffer longer and how
much of it is filled with zeros meanwhile: what comes of them in the end is told by the patches
alone. Values of one layout, each put in its place, make the same bytes in any order as one behind
the other.
-/
namespace BinaryStream

structure Patch where
  offset : Nat
  payload : Payload

namespace Patch

def bytes (p : Patch) : List UInt8 := p.payload.bytes

def stop (p : Patch) : Nat := p.offset + p.bytes.length

def write (p : Patch) : Write := .placed p.offset p.payload

def Covers (p : Patch) (i : Nat) : Prop := p.offset ≤ i ∧ i < p.stop

/-- No byte is in the ranges of both; a range without bytes is apart from every other. -/
def Apart (p q : Patch) : Prop := ∀ i, p.Covers i → ¬ q.Covers i

theorem apart_iff {p q : Patch} :
    p.Apart q ↔
      p.bytes.length = 0 ∨ q.bytes.length = 0 ∨ p.stop ≤ q.offset ∨ q.stop ≤ p.offset := by
  simp only [Apart, Covers, stop]
  constructor
  · intro apart
    have later := apart (max p.offset q.offset)
    omega
  · intro _ i
    omega

instance (p q : Patch) : Decidable (p.Apart q) := decidable_of_iff _ apart_iff.symm

theorem Apart.symm {p q : Patch} (apart : p.Apart q) : q.Apart p :=
  fun i covered other => apart i other covered

def inBuffer {ε : Type} (p : Patch) : Action ByteBuffer ε Unit := p.write.inBuffer

def inRegion (p : Patch) : Action ByteRegion AccessError Unit := p.write.inRegion

end Patch

/-- Bytes before and after the patches that are made, in whatever order. The new ones end where the
old ones do or the last of the patches; they are the payloads in their places, around them the old
bytes, and zeros in the gaps. -/
structure Patched (old : List UInt8) (made : Patch → Prop) (new : List UInt8) : Prop where
  longer : old.length ≤ new.length
  stop_le : ∀ p, made p → p.stop ≤ new.length
  length_eq : new.length = old.length ∨ ∃ p, made p ∧ new.length = p.stop
  payload_eq : ∀ p, made p → ∀ i < p.bytes.length, new[p.offset + i]? = p.bytes[i]?
  kept : ∀ i < old.length, (∀ p, made p → ¬ p.Covers i) → new[i]? = old[i]?
  zeros : ∀ i, old.length ≤ i → i < new.length → (∀ p, made p → ¬ p.Covers i) → new[i]? = some 0

namespace Patched

variable {old mid new other : List UInt8} {made : Patch → Prop} {p : Patch}

theorem congr {made' : Patch → Prop} (same : ∀ p, made p ↔ made' p) (h : Patched old made new) :
    Patched old made' new := by
  have : made = made' := funext fun p => propext (same p)
  rwa [← this]

theorem none (old : List UInt8) : Patched old (fun _ => False) old where
  longer := Nat.le_refl _
  stop_le _ made := made.elim
  length_eq := .inl rfl
  payload_eq _ made := made.elim
  kept _ _ _ := rfl
  zeros _ behind inside _ := absurd inside (Nat.not_lt.mpr behind)

/-- Patches that follow one they are apart from leave it in place. -/
theorem cons (first : ByteBuffer.Placed old p.offset p.bytes mid) (rest : Patched mid made new)
    (apart : ∀ q, made q → p.Apart q) : Patched old (fun q => q = p ∨ made q) new := by
  have grown : mid.length = max old.length p.stop := first.length_eq
  have longer := rest.longer
  refine ⟨by omega, ?_, ?_, ?_, ?_, ?_⟩
  · rintro q (rfl | later)
    · omega
    · exact rest.stop_le q later
  · rcases rest.length_eq with same | ⟨q, later, last⟩
    · by_cases within : p.stop ≤ old.length
      · exact .inl (by omega)
      · exact .inr ⟨p, .inl rfl, by omega⟩
    · exact .inr ⟨q, .inr later, last⟩
  · rintro q (rfl | later) i within
    · have covered : q.Covers (q.offset + i) := ⟨by omega, Nat.add_lt_add_left within _⟩
      have inside : q.offset + i < mid.length := Nat.lt_of_lt_of_le covered.2 (by omega)
      rw [rest.kept _ inside fun r later => apart r later _ covered]
      exact first.payload_eq i within
    · exact rest.payload_eq q later i within
  · intro i before uncovered
    have outside := uncovered p (.inl rfl)
    rw [rest.kept i (by omega) fun q later => uncovered q (.inr later)]
    apply first.kept i before
    simp only [Patch.Covers, Patch.stop] at outside
    omega
  · intro i behind inside uncovered
    have outside := uncovered p (.inl rfl)
    have others (q : Patch) (later : made q) : ¬ q.Covers i := uncovered q (.inr later)
    by_cases present : i < mid.length
    · rw [rest.kept i present others]
      apply first.zeros i _ behind
      simp only [Patch.Covers] at outside
      omega
    · exact rest.zeros i (Nat.le_of_not_lt present) inside others

theorem length_le (h : Patched old made new) (h' : Patched old made other) :
    new.length ≤ other.length := by
  rcases h.length_eq with same | ⟨p, done, same⟩
  · rw [same]
    exact h'.longer
  · rw [same]
    exact h'.stop_le p done

/-- The patches that are made determine the bytes. -/
theorem unique (h : Patched old made new) (h' : Patched old made other) : other = new := by
  have length : other.length = new.length := Nat.le_antisymm (h'.length_le h) (h.length_le h')
  apply List.ext_getElem?
  intro i
  by_cases covered : ∃ p, made p ∧ p.Covers i
  · obtain ⟨p, done, low, high⟩ := covered
    obtain ⟨k, rfl⟩ := Nat.exists_eq_add_of_le low
    have within : k < p.bytes.length := Nat.lt_of_add_lt_add_left high
    rw [h.payload_eq p done k within, h'.payload_eq p done k within]
  · have uncovered (p : Patch) (done : made p) : ¬ p.Covers i := fun inside =>
      covered ⟨p, done, inside⟩
    by_cases before : i < old.length
    · rw [h.kept i before uncovered, h'.kept i before uncovered]
    · have behind := Nat.le_of_not_lt before
      by_cases inside : i < new.length
      · rw [h.zeros i behind inside uncovered, h'.zeros i behind (length ▸ inside) uncovered]
      · rw [List.getElem?_eq_none (Nat.le_of_not_lt inside),
          List.getElem?_eq_none (length ▸ Nat.le_of_not_lt inside)]

end Patched

/-! Any writer. -/

section

variable {σ ε : Type} {act : Write → Action σ ε Unit} {bytes : σ → List UInt8} {cursor : σ → Nat}
  {Valid : σ → Prop} {Fits : σ → Write → Prop} {s : σ} {patches : List Patch}

/-- No patch changes which patches fit. -/
def Steady (act : Write → Action σ ε Unit) (Valid : σ → Prop) (Fits : σ → Write → Prop) : Prop :=
  ∀ s, Valid s → ∀ p q : Patch, Fits (act p.write s).state q.write ↔ Fits s q.write

namespace Writes

theorem steady_execute (h : Writes act bytes cursor Valid Fits) (steady : Steady act Valid Fits)
    (valid : Valid s) (patches : List Patch) :
    let t := Action.execute (fun p : Patch => act p.write) patches s
    Valid t ∧ ∀ q : Patch, Fits t q.write ↔ Fits s q.write := by
  apply Action.execute_invariant fun t => Valid t ∧ ∀ q : Patch, Fits t q.write ↔ Fits s q.write
  · rintro p t ⟨valid, same⟩
    exact ⟨(h.valid_step valid p.write).1, fun q => (steady t valid p q).trans (same q)⟩
  · exact ⟨valid, fun _ => Iff.rfl⟩

theorem execute_patched (h : Writes act bytes cursor Valid Fits) (steady : Steady act Valid Fits)
    (valid : Valid s) (apart : patches.Pairwise Patch.Apart) :
    Patched (bytes s) (fun p => p ∈ patches ∧ Fits s p.write)
      (bytes (Action.execute (fun p : Patch => act p.write) patches s)) := by
  induction patches generalizing s with
  | nil => exact (Patched.none _).congr (by simp)
  | cons p patches ih =>
    obtain ⟨first, others⟩ := List.pairwise_cons.mp apart
    have same := steady s valid p
    rw [Action.execute]
    by_cases fits : Fits s p.write
    · obtain ⟨t, ran, next, placed⟩ := h.placed valid fits
      rw [ran] at same ⊢
      refine ((ih next others).cons placed fun q later => first q later.1).congr fun q => ?_
      simp only [same, List.mem_cons]
      constructor
      · rintro (rfl | ⟨later, fits⟩)
        · exact ⟨.inl rfl, fits⟩
        · exact ⟨.inr later, fits⟩
      · rintro ⟨rfl | later, fits⟩
        · exact .inl rfl
        · exact .inr ⟨later, fits⟩
    · rw [(h.refused valid fits).2]
      refine (ih valid others).congr fun q => ?_
      simp only [List.mem_cons]
      constructor
      · rintro ⟨later, fits'⟩
        exact ⟨.inr later, fits'⟩
      · rintro ⟨rfl | later, fits'⟩
        · exact absurd fits' fits
        · exact ⟨later, fits'⟩

/-- In another order the same patches make the same bytes. -/
theorem execute_patched_perm (h : Writes act bytes cursor Valid Fits)
    (steady : Steady act Valid Fits) (valid : Valid s) (apart : patches.Pairwise Patch.Apart)
    {order : List Patch} (perm : order.Perm patches) :
    bytes (Action.execute (fun p : Patch => act p.write) order s) =
      bytes (Action.execute (fun p : Patch => act p.write) patches s) := by
  have same := h.execute_patched steady valid (apart.perm perm.symm Patch.Apart.symm)
  exact (h.execute_patched steady valid apart).unique
    (same.congr fun p => and_congr_left' perm.mem_iff)

end Writes

end

/-! The two writers. -/

namespace ByteBuffer

variable {ε : Type}

theorem steady : Steady (Write.inBuffer : Write → Action ByteBuffer ε Unit)
    (fun b => b.size < Size.blockLimit) (fun b w => w.stop b.size < Size.blockLimit) :=
  fun _ _ _ _ => Iff.rfl

theorem patch_outcome {b : ByteBuffer} (held : b.size < Size.blockLimit) {patches : List Patch}
    {p : Patch} (fits : p.stop < Size.blockLimit) :
    let t := Action.execute (Patch.inBuffer : Patch → Action ByteBuffer ε Unit) patches b
    (p.inBuffer t : Reply ByteBuffer ε Unit).outcome = .value () := by
  obtain ⟨valid, same⟩ := writes.steady_execute steady held patches
  exact (writes.answered_iff valid p.write).mpr ((same p).mpr fits)

end ByteBuffer

namespace ByteRegion

variable {r : ByteRegion}

theorem patch_eq_run (p : Patch) : p.inRegion = Command.run (.writeAt p.offset p.bytes) :=
  Write.inRegion_placed p.offset p.payload

theorem steady : Steady Write.inRegion Valid (fun r w => w.stop r.position ≤ r.capacity) := by
  intro r valid p q
  have same := run_capacity valid (.writeAt p.offset p.bytes)
  rw [← patch_eq_run] at same
  exact iff_of_eq (congrArg (q.stop ≤ ·) same)

/-- A patch leaves the position where it is, also when it is refused. -/
theorem patched_framed (h : r.Valid) (patches : List Patch) :
    let t := Action.execute Patch.inRegion patches r
    t.Valid ∧ t.capacity = r.capacity ∧ t.position = r.position := by
  apply Action.execute_invariant fun t : ByteRegion =>
    t.Valid ∧ t.capacity = r.capacity ∧ t.position = r.position
  · rintro p t ⟨valid, capacity, position⟩
    rw [patch_eq_run]
    refine ⟨run_valid valid _, (run_capacity valid _).trans capacity, ?_⟩
    rw [valid.run_apply]
    split <;> exact position
  · exact ⟨h, rfl, rfl⟩

theorem patch_outcome (h : r.Valid) (patches : List Patch) (p : Patch) :
    (p.inRegion (Action.execute Patch.inRegion patches r)).outcome =
      if p.stop ≤ r.capacity then .value ()
      else .error (.outOfRange p.offset p.bytes.length r.capacity) := by
  obtain ⟨valid, capacity, -⟩ := patched_framed h patches
  rw [patch_eq_run, valid.run_apply, capacity]
  change (if p.stop ≤ r.capacity then _ else _ : Reply ByteRegion AccessError Unit).outcome = _
  split <;> rfl

end ByteRegion

/-! Arrays. -/

namespace Patch

/-- Values of one layout, each in its place in a row whose first place has the index `start`. -/
def row (l : Layout) (start : Nat) (values : List l.Value) : List Patch :=
  (values.zipIdx start).map fun (value, i) => ⟨i * l.size, .typed ⟨l, value⟩⟩

variable {l : Layout} {start : Nat} {values : List l.Value}

theorem row_cons (l : Layout) (start : Nat) (value : l.Value) (values : List l.Value) :
    row l start (value :: values) =
      ⟨start * l.size, .typed ⟨l, value⟩⟩ :: row l (start + 1) values := rfl

theorem length_bytes_typed (offset : Nat) (item : Item) :
    (bytes ⟨offset, .typed item⟩).length = item.layout.size :=
  item.length_encode

theorem bounds_of_mem_row {p : Patch} (member : p ∈ row l start values) :
    start * l.size ≤ p.offset ∧ p.stop ≤ (start + values.length) * l.size := by
  induction values generalizing start with
  | nil => cases member
  | cons value values ih =>
    rw [row_cons, List.mem_cons] at member
    rw [List.length_cons]
    rcases member with rfl | later
    · rw [stop, length_bytes_typed, ← Nat.succ_mul]
      exact ⟨Nat.le_refl _, Nat.mul_le_mul_right _ (by omega)⟩
    · obtain ⟨low, high⟩ := ih later
      refine ⟨Nat.le_trans (Nat.mul_le_mul_right _ (Nat.le_succ _)) low, ?_⟩
      rwa [Nat.add_right_comm] at high

theorem pairwise_row (l : Layout) (start : Nat) (values : List l.Value) :
    (row l start values).Pairwise Apart := by
  induction values generalizing start with
  | nil => exact .nil
  | cons value values ih =>
    refine List.pairwise_cons.mpr ⟨fun q later => ?_, ih (start + 1)⟩
    have behind := (bounds_of_mem_row later).1
    rw [Nat.succ_mul] at behind
    rw [apart_iff, stop, length_bytes_typed]
    exact .inr (.inr (.inl behind))

/-- One behind the other, the values of a row are appended. -/
theorem execute_row (ε : Type) {b : ByteBuffer} (place : b.size = start * l.size)
    (room : (start + values.length) * l.size < Size.blockLimit) :
    Action.execute (inBuffer : Patch → Action ByteBuffer ε Unit) (row l start values) b =
      ⟨b.bytes ++ values.flatMap l.encode⟩ := by
  induction values generalizing b start with
  | nil => simp [row, Action.execute]
  | cons value values ih =>
    rw [List.length_cons, Nat.add_comm values.length, ← Nat.add_assoc] at room
    have first : (start + 1) * l.size ≤ (start + 1 + values.length) * l.size :=
      Nat.mul_le_mul_right _ (Nat.le_add_right _ _)
    have stop : b.size + (l.encode value).length = (start + 1) * l.size := by
      rw [place, l.length_encode, Nat.succ_mul]
    have wrote : (ByteBuffer.writeAt b.size (l.encode value) : Action ByteBuffer ε Unit) b = _ :=
      ByteBuffer.writeAt_apply b (by omega)
    rw [ByteBuffer.size, ByteBuffer.overwrite_padTo_length] at wrote
    have next := ih (b := ⟨b.bytes ++ l.encode value⟩) (List.length_append.trans stop) room
    rw [row_cons, Action.execute, ← place, List.flatMap_cons, ← List.append_assoc, ← next]
    exact congrArg (Action.execute _ _) (congrArg Reply.state wrote)

end Patch

/-- Patches whose ranges have no byte in common may come in any order. A buffer takes every one of
them, and a region refuses the same ones with the same errors; what they make of the bytes is in
every order what the ones that are taken say, and the region's position stays. Values of one layout
that are each put in their place, in whatever order, fill an empty buffer as when they are put one
behind the other. -/
theorem disjoint_patches_commute (ε : Type) :
    (∀ patches : List Patch, patches.Pairwise Patch.Apart →
      (∀ b : ByteBuffer, b.size < Size.blockLimit → (∀ p ∈ patches, p.stop < Size.blockLimit) →
        ∃ final : ByteBuffer, Patched b.bytes (· ∈ patches) final.bytes ∧
          ∀ order : List Patch, order.Perm patches →
            Action.execute (Patch.inBuffer : Patch → Action ByteBuffer ε Unit) order b = final ∧
            ∀ before p after, order = before ++ p :: after →
              let t := Action.execute (Patch.inBuffer : Patch → Action ByteBuffer ε Unit) before b
              (p.inBuffer t : Reply ByteBuffer ε Unit).outcome = .value ()) ∧
      ∀ r : ByteRegion, r.Valid →
        ∃ final : ByteRegion,
          Patched r.memory (fun p => p ∈ patches ∧ p.stop ≤ r.capacity) final.memory ∧
          final.capacity = r.capacity ∧ final.position = r.position ∧
          ∀ order : List Patch, order.Perm patches →
            Action.execute Patch.inRegion order r = final ∧
            ∀ before p after, order = before ++ p :: after →
              (p.inRegion (Action.execute Patch.inRegion before r)).outcome =
                if p.stop ≤ r.capacity then .value ()
                else .error (.outOfRange p.offset p.bytes.length r.capacity)) ∧
    ∀ (l : Layout) (values : List l.Value), values.length * l.size < Size.blockLimit →
      (ByteBuffer.putAll (values.map (Item.mk l)) : Action ByteBuffer ε Unit) .empty =
        ⟨.value (), ⟨values.flatMap l.encode⟩, []⟩ ∧
      ∀ order : List Patch, order.Perm (Patch.row l 0 values) →
        Action.execute (Patch.inBuffer : Patch → Action ByteBuffer ε Unit) order .empty =
          ⟨values.flatMap l.encode⟩ := by
  have inBuffer {b : ByteBuffer} (held : b.size < Size.blockLimit) {patches order : List Patch}
      (apart : patches.Pairwise Patch.Apart) (perm : order.Perm patches) :
      Action.execute (Patch.inBuffer : Patch → Action ByteBuffer ε Unit) order b =
        Action.execute (Patch.inBuffer : Patch → Action ByteBuffer ε Unit) patches b :=
    congrArg ByteBuffer.mk
      (ByteBuffer.writes.execute_patched_perm ByteBuffer.steady held apart perm)
  refine ⟨fun patches apart => ⟨?_, ?_⟩, ?_⟩
  · intro b held fits
    have patched := ByteBuffer.writes.execute_patched (ε := ε) ByteBuffer.steady held apart
    refine ⟨Action.execute Patch.inBuffer patches b, patched.congr fun p => ?_, ?_⟩
    · exact and_iff_left_of_imp (fits p)
    · intro order perm
      refine ⟨inBuffer held apart perm, ?_⟩
      rintro before p after rfl
      exact ByteBuffer.patch_outcome held (fits p (perm.subset (by simp)))
  · intro r valid
    have patched := ByteRegion.writes.execute_patched ByteRegion.steady valid apart
    obtain ⟨-, capacity, position⟩ := ByteRegion.patched_framed valid patches
    refine ⟨Action.execute Patch.inRegion patches r, patched, capacity, position, ?_⟩
    intro order perm
    refine ⟨?_, fun before p after _ => ByteRegion.patch_outcome valid before p⟩
    have memory := ByteRegion.writes.execute_patched_perm ByteRegion.steady valid apart perm
    obtain ⟨-, -, position'⟩ := ByteRegion.patched_framed valid order
    exact congrArg₂ ByteRegion.mk memory (position'.trans position.symm)
  · intro l values room
    have total : ByteBuffer.empty.size + Item.totalSize (values.map (Item.mk l)) <
        Size.blockLimit := by
      rwa [Item.totalSize_map_mk, ByteBuffer.size_empty, Nat.zero_add]
    refine ⟨?_, ?_⟩
    · rw [ByteBuffer.putAll_of_room total, Item.encodeAll_map_mk]
      rfl
    · intro order perm
      have inRow : Action.execute (Patch.inBuffer : Patch → Action ByteBuffer ε Unit)
          (Patch.row l 0 values) .empty = ⟨values.flatMap l.encode⟩ :=
        Patch.execute_row ε (Nat.zero_mul _).symm (by rwa [Nat.zero_add])
      exact (inBuffer (by decide) (Patch.pairwise_row l 0 values) perm).trans inRow

/-- Behind the end of a buffer, before it and without bytes, in another order: the gaps are filled
with zeros. In a region the patch across the end is refused, and in the gap stays what was there.
Two values of three bytes may be written from the back. -/
theorem disjoint_patches_commute_gapped :
    let first : Patch := ⟨1, .raw [9, 9, 9]⟩
    let word : Patch := ⟨6, .typed ⟨⟨.big, .unsigned .w16⟩, 0x0708⟩⟩
    let patches : List Patch := [word, ⟨9, .raw []⟩, first]
    let order : List Patch := [first, word, ⟨9, .raw []⟩]
    let b : ByteBuffer := Action.execute (Patch.inBuffer : Patch → Action ByteBuffer Empty Unit)
      order ⟨[1, 2, 3]⟩
    let r : ByteRegion := ⟨[1, 2, 3, 4, 5, 6, 7], 2⟩
    let l : Layout := ⟨.little, .signed .w24⟩
    patches.Pairwise Patch.Apart ∧ order.Perm patches ∧
      Patched [1, 2, 3] (· ∈ patches) b.bytes ∧ b.bytes = [1, 9, 9, 9, 0, 0, 7, 8, 0] ∧
      (word.inRegion (Action.execute Patch.inRegion [first] r)).outcome =
        .error (.outOfRange 6 2 7) ∧
      Action.execute Patch.inRegion order r = ⟨[1, 9, 9, 9, 5, 6, 7], 2⟩ ∧
      Action.execute (Patch.inBuffer : Patch → Action ByteBuffer Empty Unit)
        (Patch.row l 0 [-2, 5]).reverse .empty = ⟨[0xFE, 0xFF, 0xFF, 5, 0, 0]⟩ := by
  intro first word patches order b r l
  obtain ⟨commute, arrays⟩ := disjoint_patches_commute Empty
  have apart : patches.Pairwise Patch.Apart := by decide
  have perm : order.Perm patches :=
    @List.perm_append_comm _ [first] [word, ⟨9, .raw []⟩]
  obtain ⟨buffer, region⟩ := commute patches apart
  obtain ⟨final, patched, made⟩ := buffer ⟨[1, 2, 3]⟩ (by decide) (by decide)
  obtain ⟨_, -, -, -, made'⟩ := region r ⟨by decide, by decide⟩
  have bytes : b = final := (made order perm).1
  have refused := (made' order perm).2 [first] word [⟨9, .raw []⟩] rfl
  have fromBack := (arrays l [-2, 5] (by decide)).2 _ (List.reverse_perm _)
  exact ⟨apart, perm, bytes ▸ patched, by decide, refused, by decide, fromBack.trans (by decide)⟩

end BinaryStream
