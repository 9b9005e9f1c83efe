import Mathlib.Algebra.GroupWithZero.Nat
import Mathlib.Data.List.Infix

/-! Two queues in a row. Items arrive at the first, are moved in their order to the second and served
there in their order. Nothing overtakes: `flushed` is the rule that after as many moves as the first
queue held items, and then as many services as the second may hold, all of these items are served,
before any that arrived later. -/

namespace Tandem

variable {α : Type}

/-- Both queues, oldest item first, and what has been served. -/
structure State (α : Type) where
  first : List α
  second : List α
  out : List α

/-- A move or a service takes up to `k` items. -/
inductive Event (α : Type) where
  | arrive (xs : List α)
  | move (k : Nat)
  | serve (k : Nat)

def State.step (s : State α) : Event α → State α
  | .arrive xs => { s with first := s.first ++ xs }
  | .move k => { s with first := s.first.drop k, second := s.second ++ s.first.take k }
  | .serve k => { s with second := s.second.drop k, out := s.out ++ s.second.take k }

def State.run (s : State α) (es : List (Event α)) : State α := es.foldl State.step s

def Event.arrivals : Event α → List α
  | .arrive xs => xs
  | _ => []

def Event.moves : Event α → Nat
  | .move k => k
  | _ => 0

def Event.serves : Event α → Nat
  | .serve k => k
  | _ => 0

/-- All items in the order of their arrival. -/
def State.all (s : State α) : List α := s.out ++ (s.second ++ s.first)

@[simp] theorem State.run_cons (s : State α) (e : Event α) (es : List (Event α)) :
    s.run (e :: es) = (s.step e).run es := rfl

theorem State.run_append (s : State α) (es es' : List (Event α)) :
    s.run (es ++ es') = (s.run es).run es' := List.foldl_append

theorem State.step_all (s : State α) (e : Event α) : (s.step e).all = s.all ++ e.arrivals := by
  cases e with
  | arrive xs => simp [step, all, Event.arrivals]
  | move k => simp [step, all, Event.arrivals]
  | serve k =>
    simp only [step, all, Event.arrivals, List.append_nil, List.append_assoc]
    rw [← List.append_assoc (s.second.take k), List.take_append_drop]

/-- Nothing is lost and nothing overtakes. -/
theorem State.run_all (s : State α) (es : List (Event α)) :
    (s.run es).all = s.all ++ es.flatMap Event.arrivals := by
  induction es generalizing s with
  | nil => exact (List.append_nil _).symm
  | cons e es ih => rw [run_cons, ih, step_all, List.flatMap_cons, List.append_assoc]

/-- What is left in the first queue. -/
theorem State.first_le (s : State α) (es : List (Event α)) :
    (s.run es).first.length ≤
      (s.first.length - (es.map Event.moves).sum) + (es.flatMap Event.arrivals).length := by
  induction es generalizing s with
  | nil => exact Nat.le_refl _
  | cons e es ih =>
    have hrest := ih (s.step e)
    rw [run_cons, List.map_cons, List.sum_cons, List.flatMap_cons, List.length_append]
    cases e with
    | arrive xs =>
      simp only [step, List.length_append, Event.moves, Event.arrivals] at hrest ⊢
      omega
    | move k =>
      simp only [step, List.length_drop, Event.moves, Event.arrivals, List.length_nil] at hrest ⊢
      omega
    | serve k =>
      simp only [step, Event.moves, Event.arrivals, List.length_nil] at hrest ⊢
      omega

/-- What is left in both. -/
theorem State.both_le (s : State α) (es : List (Event α)) :
    (s.run es).second.length + (s.run es).first.length ≤
      (s.second.length - (es.map Event.serves).sum) + s.first.length +
        (es.flatMap Event.arrivals).length := by
  induction es generalizing s with
  | nil => exact Nat.le_refl _
  | cons e es ih =>
    have hrest := ih (s.step e)
    rw [run_cons, List.map_cons, List.sum_cons, List.flatMap_cons, List.length_append]
    cases e with
    | arrive xs =>
      simp only [step, List.length_append, Event.serves, Event.arrivals] at hrest ⊢
      omega
    | move k =>
      simp only [step, List.length_append, List.length_drop, List.length_take, Event.serves,
        Event.arrivals, List.length_nil] at hrest ⊢
      omega
    | serve k =>
      simp only [step, List.length_drop, Event.serves, Event.arrivals, List.length_nil] at hrest ⊢
      omega

/-- After enough moves, what was in the first queue has left it. -/
theorem State.moved (s : State α) {es : List (Event α)}
    (h : s.first.length ≤ (es.map Event.moves).sum) :
    s.all <+: (s.run es).out ++ (s.run es).second := by
  have hall := s.run_all es
  have hleft := s.first_le es
  have hlen := congrArg List.length hall
  have hbegins : (s.run es).out ++ (s.run es).second <+: (s.run es).all :=
    ⟨(s.run es).first, List.append_assoc _ _ _⟩
  rw [hall] at hbegins
  refine List.prefix_of_prefix_length_le (List.prefix_append _ _) hbegins ?_
  simp only [all, List.length_append] at hlen ⊢
  omega

/-- After enough services, what was in the second queue has left it. -/
theorem State.served (s : State α) {es : List (Event α)}
    (h : s.second.length ≤ (es.map Event.serves).sum) :
    s.out ++ s.second <+: (s.run es).out := by
  have hall := s.run_all es
  have hleft := s.both_le es
  have hlen := congrArg List.length hall
  have hbegins : (s.run es).out <+: (s.run es).all := List.prefix_append _ _
  rw [hall] at hbegins
  have hbefore : s.out ++ s.second <+: s.all ++ es.flatMap Event.arrivals :=
    ⟨s.first ++ es.flatMap Event.arrivals, by simp [all]⟩
  refine List.prefix_of_prefix_length_le hbefore hbegins ?_
  simp only [all, List.length_append] at hlen ⊢
  omega

/-- The rule. -/
theorem State.flushed (s : State α) {es es' : List (Event α)}
    (h : s.first.length ≤ (es.map Event.moves).sum)
    (h' : (s.run es).second.length ≤ (es'.map Event.serves).sum) :
    s.all <+: (s.run (es ++ es')).out ∧
      (s.run (es ++ es')).out <+: s.all ++ (es ++ es').flatMap Event.arrivals := by
  constructor
  · rw [run_append]
    exact (s.moved h).trans ((s.run es).served h')
  · rw [← run_all]
    exact List.prefix_append _ _

end Tandem
