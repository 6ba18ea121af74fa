import BinaryStream.Event
import BinaryStream.Size

/-!
Actions on a state: each ends in a value, an error or a fault, and leaves a state and the events
that happened on the way. What happened before an error stays, so that an action changes nothing
when it fails is a statement about the action and not a property of this type.
-/
namespace BinaryStream

inductive Outcome (ε α : Type) where
  | value (a : α)
  | error (e : ε)
  | fault (f : Fault)
  deriving DecidableEq

structure Reply (σ ε α : Type) where
  outcome : Outcome ε α
  state : σ
  events : List Event
  deriving DecidableEq

def Action (σ ε α : Type) : Type := σ → Reply σ ε α

namespace Outcome

variable {ε δ α β : Type}

def map (f : α → β) : Outcome ε α → Outcome ε β
  | .value a => .value (f a)
  | .error e => .error e
  | .fault f => .fault f

def mapError (f : ε → δ) : Outcome ε α → Outcome δ α
  | .value a => .value a
  | .error e => .error (f e)
  | .fault f => .fault f

def ofExcept : Except Fault α → Outcome ε α
  | .ok a => .value a
  | .error f => .fault f

@[simp] theorem map_eq_error {f : α → β} {o : Outcome ε α} {e : ε} :
    o.map f = .error e ↔ o = .error e := by
  cases o <;> simp [map]

@[simp] theorem map_eq_fault {f : α → β} {o : Outcome ε α} {g : Fault} :
    o.map f = .fault g ↔ o = .fault g := by
  cases o <;> simp [map]

theorem map_map {γ : Type} (o : Outcome ε α) (f : α → β) (g : β → γ) :
    (o.map f).map g = o.map fun a => g (f a) := by
  cases o <;> rfl

end Outcome

namespace Reply

variable {σ τ ε α : Type}

def mapState (f : σ → τ) (r : Reply σ ε α) : Reply τ ε α :=
  ⟨r.outcome, f r.state, r.events⟩

def after (log : List Event) (r : Reply σ ε α) : Reply σ ε α :=
  { r with events := log ++ r.events }

/-- Reports the result once it is known; a fault has none. -/
def observed (event : Except AccessError α → Event) (r : Reply σ AccessError α) :
    Reply σ AccessError α :=
  match r.outcome with
  | .value a => { r with events := r.events ++ [event (.ok a)] }
  | .error e => { r with events := r.events ++ [event (.error e)] }
  | .fault _ => r

@[simp] theorem after_nil (r : Reply σ ε α) : r.after [] = r := rfl

end Reply

namespace Action

variable {σ τ ε δ α β : Type}

def pure (a : α) : Action σ ε α := fun s => ⟨.value a, s, []⟩

def bind (x : Action σ ε α) (f : α → Action σ ε β) : Action σ ε β := fun s =>
  match x s with
  | ⟨.value a, t, log⟩ => (f a t).after log
  | ⟨.error e, t, log⟩ => ⟨.error e, t, log⟩
  | ⟨.fault f, t, log⟩ => ⟨.fault f, t, log⟩

instance : Monad (Action σ ε) where
  pure := pure
  bind := bind

def get : Action σ ε σ := fun s => ⟨.value s, s, []⟩

def modify (f : σ → σ) : Action σ ε Unit := fun s => ⟨.value (), f s, []⟩

def fail (e : ε) : Action σ ε α := fun s => ⟨.error e, s, []⟩

def fault (f : Fault) : Action σ ε α := fun s => ⟨.fault f, s, []⟩

/-- Ends in an error that is traced. -/
def refuse (e : AccessError) : Action σ AccessError α := fun s => ⟨.error e, s, [.refused e]⟩

def ofExcept (x : Except Fault α) : Action σ ε α := fun s => ⟨.ofExcept x, s, []⟩

def checkRange (offset size length : Nat) : Action σ AccessError Unit :=
  if Size.fits offset size length then pure () else refuse (.outOfRange offset size length)

def onFirst (x : Action σ ε α) : Action (σ × τ) ε α := fun s =>
  (x s.1).mapState (·, s.2)

def onSecond (x : Action τ ε α) : Action (σ × τ) ε α := fun s =>
  (x s.2).mapState (s.1, ·)

def mapError (f : ε → δ) (x : Action σ ε α) : Action σ δ α := fun s =>
  let r := x s
  ⟨r.outcome.mapError f, r.state, r.events⟩

@[simp] theorem pure_apply (a : α) (s : σ) :
    (Pure.pure a : Action σ ε α) s = ⟨.value a, s, []⟩ := rfl

theorem bind_apply (x : Action σ ε α) (f : α → Action σ ε β) (s : σ) :
    (x >>= f) s = match x s with
      | ⟨.value a, t, log⟩ => (f a t).after log
      | ⟨.error e, t, log⟩ => ⟨.error e, t, log⟩
      | ⟨.fault f, t, log⟩ => ⟨.fault f, t, log⟩ := rfl

@[simp] theorem bind_of_value {x : Action σ ε α} {f : α → Action σ ε β} {s t : σ} {a : α}
    {log : List Event} (h : x s = ⟨.value a, t, log⟩) : (x >>= f) s = (f a t).after log := by
  rw [bind_apply, h]

theorem bind_assoc {γ : Type} (x : Action σ ε α) (f : α → Action σ ε β) (g : β → Action σ ε γ) :
    x >>= f >>= g = x >>= fun a => f a >>= g := by
  funext s
  simp only [bind_apply]
  obtain ⟨outcome, t, log⟩ := x s
  cases outcome with
  | value a =>
    simp only [Reply.after]
    obtain ⟨outcome, t, more⟩ := f a t
    cases outcome <;> simp
  | error e => rfl
  | fault f => rfl

@[simp] theorem modify_apply (f : σ → σ) (s : σ) :
    (modify f : Action σ ε Unit) s = ⟨.value (), f s, []⟩ := rfl

@[simp] theorem refuse_apply (e : AccessError) (s : σ) :
    (refuse e : Action σ AccessError α) s = ⟨.error e, s, [.refused e]⟩ := rfl

/-! An action that cannot fail is passed by the one after it. -/

@[simp] theorem pure_bind_apply (a : α) (f : α → Action σ ε β) (s : σ) :
    ((Pure.pure a : Action σ ε α) >>= f) s = f a s := rfl

@[simp] theorem get_bind_apply (f : σ → Action σ ε β) (s : σ) : (get >>= f) s = f s s := rfl

@[simp] theorem modify_bind_apply (g : σ → σ) (f : Unit → Action σ ε β) (s : σ) :
    (modify g >>= f) s = f () (g s) := rfl

@[simp] theorem fault_apply (f : Fault) (s : σ) :
    (fault f : Action σ ε α) s = ⟨.fault f, s, []⟩ := rfl

@[simp] theorem ofExcept_ok (a : α) : (ofExcept (.ok a) : Action σ ε α) = Pure.pure a := rfl

@[simp] theorem checkRange_of_fits {offset size length : Nat}
    (h : Size.fits offset size length = true) :
    (checkRange offset size length : Action σ AccessError Unit) = pure () := by
  simp [checkRange, h]

theorem checkRange_of_not_fits {offset size length : Nat}
    (h : Size.fits offset size length = false) :
    (checkRange offset size length : Action σ AccessError Unit) =
      refuse (.outOfRange offset size length) := by
  simp [checkRange, h]

/-- A checked request goes on exactly when its range is inside, over the natural numbers. -/
theorem checkRange_bind_apply {offset size length : Nat} (small : length < Size.limit)
    (f : Unit → Action σ AccessError α) (s : σ) :
    (checkRange offset size length >>= f) s =
      if offset + size ≤ length then f () s
      else refuse (.outOfRange offset size length) s := by
  split
  · rename_i inside
    rw [checkRange_of_fits ((Size.fits_eq_true_iff small).mpr inside)]
    rfl
  · rename_i outside
    have : Size.fits offset size length = false :=
      Bool.eq_false_iff.mpr (mt (Size.fits_eq_true_iff small).mp outside)
    rw [checkRange_of_not_fits this]
    rfl

/-- What follows a request that is answered or refused follows its answer only. -/
theorem bind_of_ite {x : Action σ AccessError α} {p : Prop} [Decidable p] {a : α}
    {e : AccessError} {s t : σ} (f : α → Action σ AccessError β)
    (h : x s = if p then ⟨.value a, t, []⟩ else refuse e s) :
    (x >>= f) s = if p then f a t else refuse e s := by
  by_cases holds : p
  · rw [if_pos holds] at h ⊢
    rw [bind_of_value h, Reply.after_nil]
  · rw [if_neg holds] at h ⊢
    rw [bind_apply, h, refuse_apply]
    rfl

theorem bind_pure_apply (x : Action σ ε α) (f : α → β) (s : σ) :
    (x >>= fun a => (Pure.pure (f a) : Action σ ε β)) s =
      ⟨(x s).outcome.map f, (x s).state, (x s).events⟩ := by
  rw [bind_apply]
  obtain ⟨outcome, t, log⟩ := x s
  cases outcome <;> simp [Reply.after, Outcome.map]

end Action

end BinaryStream
