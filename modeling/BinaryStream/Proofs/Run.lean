import Mathlib.Algebra.Order.Ring.Nat
import BinaryStream.Action

/-!
Runs: commands given to a state one after the other, whatever each of them answers. What one command
keeps a whole run keeps, of one state or of two that are related. Two replies are related when they
say the same and their states are. An action can also be run again and again, until an answer or a
refusal ends it.
-/
namespace BinaryStream

namespace Outcome

variable {ε δ α β γ : Type}

/-- Outcomes that are the same, but for answers that are related. -/
inductive Related (answers : α → β → Prop) : Outcome ε α → Outcome ε β → Prop where
  | value {a : α} {b : β} (same : answers a b) : Related answers (.value a) (.value b)
  | error (e : ε) : Related answers (.error e) (.error e)
  | fault (f : Fault) : Related answers (.fault f) (.fault f)

variable {answers : α → β → Prop} {o : Outcome ε α} {o' : Outcome ε β}

theorem Related.mapError (f : ε → δ) (h : Related answers o o') :
    Related answers (o.mapError f) (o'.mapError f) := by
  cases h with
  | value same => exact .value same
  | error e => exact .error (f e)
  | fault g => exact .fault g

theorem related_of_map_eq {f : α → γ} {g : β → γ} (same : o.map f = o'.map g)
    (related : ∀ a b, o = .value a → o' = .value b → f a = g b → answers a b) :
    Related answers o o' := by
  cases o with
  | value a =>
    cases o' with
    | value b => exact .value (related a b rfl rfl (value.inj same))
    | error e => cases same
    | fault f => cases same
  | error e =>
    cases o' with
    | error e' => cases same; exact .error e
    | value b => cases same
    | fault f => cases same
  | fault f =>
    cases o' with
    | fault f' => cases same; exact .fault f
    | value b => cases same
    | error e => cases same

theorem Related.refl (o : Outcome ε α) : Related Eq o o := by
  cases o with
  | value a => exact .value rfl
  | error e => exact .error e
  | fault f => exact .fault f

theorem Related.eq {o o' : Outcome ε α} (h : Related Eq o o') : o = o' := by
  cases h with
  | value same => rw [same]
  | error e => rfl
  | fault f => rfl

end Outcome

namespace Reply

variable {σ τ ε δ α β γ ζ : Type}

/-- Replies that end alike, after the same events, in related states. -/
structure Related (answers : α → β → Prop) (states : σ → τ → Prop) (r : Reply σ ε α)
    (r' : Reply τ ε β) : Prop where
  outcome : r.outcome.Related answers r'.outcome
  events_eq : r.events = r'.events
  state : states r.state r'.state

namespace Related

variable {answers : α → β → Prop} {results : γ → ζ → Prop} {states : σ → τ → Prop} {s : σ} {t : τ}

theorem bind {x : Action σ ε α} {y : Action τ ε β} {f : α → Action σ ε γ} {g : β → Action τ ε ζ}
    (first : Related answers states (x s) (y t))
    (next : ∀ a b s t, answers a b → states s t → Related results states (f a s) (g b t)) :
    Related results states ((x >>= f) s) ((y >>= g) t) := by
  rw [Action.bind_apply, Action.bind_apply]
  generalize x s = r at first ⊢
  generalize y t = r' at first ⊢
  obtain ⟨outcome, s', log⟩ := r
  obtain ⟨outcome', t', log'⟩ := r'
  obtain ⟨outcomes, sameLog, state⟩ := first
  cases sameLog
  cases outcomes with
  | @value a b same =>
    have later := next a b s' t' same state
    exact ⟨later.outcome, congrArg (log ++ ·) later.events_eq, later.state⟩
  | error e => exact ⟨.error e, rfl, state⟩
  | fault f => exact ⟨.fault f, rfl, state⟩

theorem mapError {x : Action σ ε α} {y : Action τ ε β} (f : ε → δ)
    (h : Related answers states (x s) (y t)) :
    Related answers states (x.mapError f s) (y.mapError f t) :=
  ⟨h.outcome.mapError f, h.events_eq, h.state⟩

end Related

/-- Replies that end alike in related states, whatever was reported on the way. -/
structure Mirrors (states : σ → τ → Prop) (r : Reply σ ε α) (r' : Reply τ ε α) : Prop where
  outcome_eq : r'.outcome = r.outcome
  state : states r.state r'.state

namespace Mirrors

variable {states : σ → τ → Prop} {s : σ} {t : τ}

theorem bind {x : Action σ ε α} {y : Action τ ε α} {f : α → Action σ ε γ} {g : α → Action τ ε γ}
    (first : Mirrors states (x s) (y t))
    (next : ∀ a s t, states s t → Mirrors states (f a s) (g a t)) :
    Mirrors states ((x >>= f) s) ((y >>= g) t) := by
  rw [Action.bind_apply, Action.bind_apply]
  generalize x s = r at first ⊢
  generalize y t = r' at first ⊢
  obtain ⟨outcome, s', log⟩ := r
  obtain ⟨outcome', t', log'⟩ := r'
  obtain ⟨rfl, state⟩ := first
  cases outcome' with
  | value a =>
    obtain ⟨ends, later⟩ := next a s' t' state
    exact ⟨ends, later⟩
  | error e => exact ⟨rfl, state⟩
  | fault f => exact ⟨rfl, state⟩

theorem mapError {x : Action σ ε α} {y : Action τ ε α} (f : ε → δ)
    (h : Mirrors states (x s) (y t)) : Mirrors states (x.mapError f s) (y.mapError f t) :=
  ⟨congrArg (Outcome.mapError f) h.outcome_eq, h.state⟩

end Mirrors

end Reply

namespace Action

variable {κ σ τ ε α β : Type}

theorem answered_of_bind {x : Action σ ε α} {f : α → Action σ ε β} {s : σ} {b : β}
    (answered : ((x >>= f) s).outcome = .value b) : ∃ a t, (f a t).outcome = .value b := by
  rw [bind_apply] at answered
  split at answered
  · exact ⟨_, _, answered⟩
  · cases answered
  · cases answered

def execute (act : κ → Action σ ε α) : List κ → σ → σ
  | [], s => s
  | command :: commands, s => execute act commands (act command s).state

theorem execute_append (act : κ → Action σ ε α) (before after : List κ) (s : σ) :
    execute act (before ++ after) s = execute act after (execute act before s) := by
  induction before generalizing s with
  | nil => rfl
  | cons command before ih => exact ih (act command s).state

theorem execute_invariant {act : κ → Action σ ε α} (holds : σ → Prop)
    (preserved : ∀ command s, holds s → holds (act command s).state)
    (commands : List κ) {s : σ} (initial : holds s) : holds (execute act commands s) := by
  induction commands generalizing s with
  | nil => exact initial
  | cons command commands ih => exact ih (preserved command s initial)

/-- The reply to each command. -/
def replies (act : κ → Action σ ε α) : List κ → σ → List (Reply σ ε α)
  | [], _ => []
  | command :: commands, s => act command s :: replies act commands (act command s).state

theorem replies_forall {act : κ → Action σ ε α} {holds : Reply σ ε α → Prop}
    (answers : ∀ command s, holds (act command s)) (commands : List κ) (s : σ) :
    ∀ r ∈ replies act commands s, holds r := by
  induction commands generalizing s with
  | nil => nofun
  | cons command commands ih =>
    rintro r (_ | ⟨_, member⟩)
    · exact answers command s
    · exact ih _ r member

/-- Two machines given the same commands stay related when each command keeps them so. -/
theorem execute_related {act : κ → Action σ ε α} {other : κ → Action τ ε α}
    (related : σ → τ → Prop)
    (preserved : ∀ command s t, related s t → related (act command s).state (other command t).state)
    (commands : List κ) {s : σ} {t : τ} (initial : related s t) :
    related (execute act commands s) (execute other commands t) := by
  induction commands generalizing s t with
  | nil => exact initial
  | cons command commands ih => exact ih (preserved command s t initial)

/-- Commands one after the other, up to the first that is not answered. -/
def perform (act : κ → Action σ ε α) : List κ → Action σ ε Unit
  | [] => Pure.pure ()
  | command :: commands => do
    let _ ← act command
    perform act commands

theorem perform_of_value {act : κ → Action σ ε α} {command : κ} {s t : σ} {a : α}
    (answered : act command s = ⟨.value a, t, []⟩) (commands : List κ) :
    perform act (command :: commands) s = perform act commands t := by
  rw [perform, bind_of_value answered, Reply.after_nil]

theorem perform_map {ι : Type} (act : κ → Action σ ε α) (f : ι → κ) (commands : List ι) :
    perform act (commands.map f) = perform (fun i => act (f i)) commands := by
  induction commands with
  | nil => rfl
  | cons command commands ih => rw [List.map_cons, perform, perform, ih]

/-- Commands one after the other, up to the first that is not answered, and their answers. -/
def collect (act : κ → Action σ ε α) : List κ → Action σ ε (List α)
  | [] => Pure.pure []
  | command :: commands => do
    let a ← act command
    let answers ← collect act commands
    Pure.pure (a :: answers)

theorem collect_of_value (act : κ → Action σ ε α) {command : κ} {s t : σ} {a : α}
    (answered : act command s = ⟨.value a, t, []⟩) (commands : List κ) :
    collect act (command :: commands) s =
      ⟨(collect act commands t).outcome.map (a :: ·), (collect act commands t).state,
        (collect act commands t).events⟩ := by
  rw [collect, bind_of_value answered, Reply.after_nil, bind_pure_apply]

/-! Actions that are run again as long as their answers say so. -/

/-- The answers for which `goesOn` holds, one after the other, and the reply that ends the loop:
the first that is not answered or whose answer is another. -/
inductive Repeats (x : Action σ ε α) (goesOn : α → Prop) :
    σ → List α → Reply σ ε α → Prop where
  | ended {s : σ} (last : ∀ a, (x s).outcome = .value a → ¬ goesOn a) :
      Repeats x goesOn s [] (x s)
  | again {s : σ} {a : α} {answers : List α} {last : Reply σ ε α}
      (answered : (x s).outcome = .value a) (on : goesOn a)
      (rest : Repeats x goesOn (x s).state answers last) :
      Repeats x goesOn s (a :: answers) last

/-- A loop gives the same answers and ends alike whenever it starts from the same state. -/
theorem Repeats.unique {x : Action σ ε α} {goesOn : α → Prop} {s : σ} {answers others : List α}
    {last final : Reply σ ε α} (run : Repeats x goesOn s answers last)
    (other : Repeats x goesOn s others final) : others = answers ∧ final = last := by
  induction run generalizing others with
  | ended stops =>
    cases other with
    | ended _ => exact ⟨rfl, rfl⟩
    | again answered on _ => exact absurd on (stops _ answered)
  | again answered on _ ih =>
    cases other with
    | ended stops => exact absurd on (stops _ answered)
    | again answered' _ rest =>
      obtain ⟨rfl, rfl⟩ := ih rest
      rw [answered] at answered'
      cases answered'
      exact ⟨rfl, rfl⟩

/-- A loop that takes something off a measure whenever it goes on comes to its end. -/
theorem exists_repeats {x : Action σ ε α} {goesOn : α → Prop} {holds : σ → Prop}
    {measure : σ → Nat}
    (step : ∀ s a, holds s → (x s).outcome = .value a → goesOn a →
      holds (x s).state ∧ measure (x s).state < measure s)
    {s : σ} (initial : holds s) :
    ∃ answers last, Repeats x goesOn s answers last ∧ answers.length ≤ measure s := by
  induction size : measure s using Nat.strongRecOn generalizing s with
  | _ n ih =>
    by_cases on : ∃ a, (x s).outcome = .value a ∧ goesOn a
    · obtain ⟨a, answered, on⟩ := on
      obtain ⟨holds, less⟩ := step s a initial answered on
      obtain ⟨answers, last, rest, few⟩ := ih _ (size ▸ less) holds rfl
      refine ⟨a :: answers, last, .again answered on rest, ?_⟩
      rw [List.length_cons]
      omega
    · exact ⟨[], x s, .ended fun a answered goes => on ⟨a, answered, goes⟩, Nat.zero_le _⟩

/-! Commands that each take some room, of which there is only so much. -/

section Room

variable {act : κ → Action σ ε Unit} {size : σ → Nat} {cost : κ → Nat} {limit : Nat} {f : Fault}
  {add : σ → κ → σ}

theorem perform_of_room
    (step : ∀ command s, act command s =
      if size s + cost command < limit then ⟨.value (), add s command, []⟩ else ⟨.fault f, s, []⟩)
    (grows : ∀ command s, size (add s command) = size s + cost command)
    {commands : List κ} {s : σ} (room : size s + (commands.map cost).sum < limit) :
    perform act commands s = ⟨.value (), commands.foldl add s, []⟩ := by
  induction commands generalizing s with
  | nil => rfl
  | cons command commands ih =>
    rw [List.map_cons, List.sum_cons, ← Nat.add_assoc] at room
    have first := step command s
    rw [if_pos (by omega)] at first
    rw [perform_of_value first, ih (by rwa [grows]), List.foldl_cons]

/-- The fault comes at the command that the room does not suffice for. -/
theorem perform_of_no_room
    (step : ∀ command s, act command s =
      if size s + cost command < limit then ⟨.value (), add s command, []⟩ else ⟨.fault f, s, []⟩)
    (grows : ∀ command s, size (add s command) = size s + cost command)
    {commands : List κ} {s : σ} (held : size s < limit)
    (full : limit ≤ size s + (commands.map cost).sum) :
    (perform act commands s).outcome = .fault f := by
  induction commands generalizing s with
  | nil =>
    rw [List.map_nil, List.sum_nil] at full
    omega
  | cons command commands ih =>
    rw [List.map_cons, List.sum_cons, ← Nat.add_assoc] at full
    have first := step command s
    by_cases fits : size s + cost command < limit
    · rw [if_pos fits] at first
      rw [perform_of_value first]
      exact ih (by rwa [grows]) (by rwa [grows])
    · rw [if_neg fits] at first
      rw [perform, bind_apply, first]

end Room

end Action

end BinaryStream
