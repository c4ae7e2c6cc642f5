import Mathlib.Data.List.Induction
import Mathlib.Logic.Function.Basic

/-!
# Calls by mail

What a `Post` is for, without its threads: a call leaves its arguments with a deliver and then
enters the deliver into the queue of the post; the polling thread takes a deliver from the
queue, takes the oldest arguments that have been left with it, and executes the call. `Mail.Inv`
says that there are as many arguments with a deliver as there are entries of it in the queue, on
the way to it or in the hand of the polling thread, and that what has been executed is what has
been left, in order.
-/

namespace ChargingPile

namespace Mail

/-- How far a call has come: it has left nothing yet, it owes the queue an entry, or
it has entered. -/
inductive Phase
  | calling | owing | entered
deriving DecidableEq, Repr

/-- A call of a deliver. -/
structure Call (D A : Type*) where
  deliver : D
  args : A
  phase : Phase
deriving DecidableEq

/-- The hand of the polling thread: free, with a deliver, or with the arguments of a call. -/
inductive Hand (D A : Type*)
  | free
  | serving (d : D)
  | holding (d : D) (args : A)
deriving DecidableEq

/-- What can be seen of a post: a call leaves its arguments, and it is executed. -/
inductive Output (D A : Type*)
  | queued (d : D) (args : A)
  | executed (d : D) (args : A)
deriving DecidableEq, Repr

end Mail

/-- The calls that have been made, the arguments that are with a deliver, the entries of the queue
and the hand of the polling thread. -/
structure Mail (D A : Type*) where
  queue : List D
  ctx : D → List A
  calls : List (Mail.Call D A)
  hand : Mail.Hand D A

namespace Mail

variable {D A : Type*} [DecidableEq D]

/-- A step, with what can be seen of it. -/
inductive Step : Mail D A → List (Output D A) → Mail D A → Prop
  | signal {s : Mail D A} (d : D) (args : A) :
      Step s [] { s with calls := s.calls ++ [⟨d, args, .calling⟩] }
  | leave {s : Mail D A} {pre post : List (Call D A)} {d : D} {args : A}
      (h : s.calls = pre ++ ⟨d, args, .calling⟩ :: post) :
      Step s [.queued d args] { s with
        ctx := Function.update s.ctx d (s.ctx d ++ [args])
        calls := pre ++ ⟨d, args, .owing⟩ :: post }
  | enter {s : Mail D A} {pre post : List (Call D A)} {d : D} {args : A}
      (h : s.calls = pre ++ ⟨d, args, .owing⟩ :: post) :
      Step s [] { s with queue := s.queue ++ [d], calls := pre ++ ⟨d, args, .entered⟩ :: post }
  | pop {s : Mail D A} {d : D} {rest : List D} (hhand : s.hand = .free) (h : s.queue = d :: rest) :
      Step s [] { s with queue := rest, hand := .serving d }
  | take {s : Mail D A} {d : D} {args : A} {rest : List A} (hhand : s.hand = .serving d)
      (h : s.ctx d = args :: rest) :
      Step s [] { s with ctx := Function.update s.ctx d rest, hand := .holding d args }
  | execute {s : Mail D A} {d : D} {args : A} (hhand : s.hand = .holding d args) :
      Step s [.executed d args] { s with hand := .free }

/-! ## What is counted -/

/-- The arguments left with `d`, in order. -/
def queuedOf (d : D) : List (Output D A) → List A :=
  List.filterMap fun
    | .queued d' args => if d' = d then some args else none
    | .executed _ _ => none

/-- The arguments with which `d` has been executed, in order. -/
def executedOf (d : D) : List (Output D A) → List A :=
  List.filterMap fun
    | .queued _ _ => none
    | .executed d' args => if d' = d then some args else none

/-- A call of `d` that has left its arguments and has not entered. -/
def Call.owes (c : Call D A) (d : D) : Bool := c.deliver = d && c.phase = .owing

/-- A call of `d` that has left its arguments. -/
def Call.left (c : Call D A) (d : D) : Bool := c.deliver = d && c.phase ≠ .calling

/-- The number of entries of `d` in the hand. -/
def Hand.entries (d : D) : Hand D A → Nat
  | .serving d' => if d' = d then 1 else 0
  | .free | .holding _ _ => 0

/-- The arguments for `d` in the hand. -/
def Hand.held (d : D) : Hand D A → List A
  | .holding d' args => if d' = d then [args] else []
  | .free | .serving _ => []

/-- The invariant, of what has been seen so far and the state. -/
structure Inv (tr : List (Output D A)) (s : Mail D A) : Prop where
  counted : ∀ d, (s.ctx d).length =
    s.queue.count d + s.hand.entries d + s.calls.countP (Call.owes · d)
  logged : ∀ d, queuedOf d tr = executedOf d tr ++ (s.hand.held d ++ s.ctx d)
  left : ∀ d, ((s.calls.filter (Call.left · d)).map Call.args).Perm (queuedOf d tr)

section Count

variable {d d' : D} {args : A} {tr out : List (Output D A)}

theorem queuedOf_append : queuedOf d (tr ++ out) = queuedOf d tr ++ queuedOf d out :=
  List.filterMap_append

theorem executedOf_append : executedOf d (tr ++ out) = executedOf d tr ++ executedOf d out :=
  List.filterMap_append

@[simp] theorem queuedOf_nil : queuedOf d ([] : List (Output D A)) = [] := rfl

@[simp] theorem executedOf_nil : executedOf d ([] : List (Output D A)) = [] := rfl

@[simp] theorem queuedOf_queued :
    queuedOf d [.queued d' args] = if d' = d then [args] else [] := by
  by_cases h : d' = d <;> simp [queuedOf, h]

@[simp] theorem queuedOf_executed : queuedOf d [.executed d' args] = [] := rfl

@[simp] theorem executedOf_queued : executedOf d [.queued d' args] = [] := rfl

@[simp] theorem executedOf_executed :
    executedOf d [.executed d' args] = if d' = d then [args] else [] := by
  by_cases h : d' = d <;> simp [executedOf, h]

end Count

section Step

variable {s s' : Mail D A} {tr out : List (Output D A)}

/-- What one step keeps of the counts. -/
theorem Inv.step_counted (hi : Inv tr s) (h : Step s out s') (d : D) :
    (s'.ctx d).length = s'.queue.count d + s'.hand.entries d +
      s'.calls.countP (Call.owes · d) := by
  have hd := hi.counted d
  cases h with
  | signal d' args => simpa [Call.owes] using hd
  | @leave pre post d' args h =>
    rw [h] at hd
    by_cases heq : d' = d
    · subst heq
      simp [Call.owes] at hd ⊢
      omega
    · simpa [Call.owes, heq, Function.update_of_ne (Ne.symm heq)] using hd
  | @enter pre post d' args h =>
    rw [h] at hd
    by_cases heq : d' = d
    · subst heq
      simp [Call.owes] at hd ⊢
      omega
    · simpa [Call.owes, heq] using hd
  | @pop d' rest hhand h =>
    rw [hhand, h] at hd
    by_cases heq : d' = d
    · subst heq
      simp [Hand.entries] at hd ⊢
      omega
    · simpa [Hand.entries, heq] using hd
  | @take d' args rest hhand h =>
    rw [hhand] at hd
    by_cases heq : d' = d
    · subst heq
      rw [h] at hd
      simp [Hand.entries] at hd ⊢
      omega
    · simpa [Hand.entries, heq, Function.update_of_ne (Ne.symm heq)] using hd
  | execute hhand =>
    rw [hhand] at hd
    exact hd

/-- What one step keeps of the log. -/
theorem Inv.step_logged (hi : Inv tr s) (h : Step s out s') (d : D) :
    queuedOf d (tr ++ out) = executedOf d (tr ++ out) ++ (s'.hand.held d ++ s'.ctx d) := by
  have hd := hi.logged d
  rw [queuedOf_append, executedOf_append]
  cases h with
  | signal | enter => simpa using hd
  | @leave pre post d' args h =>
    by_cases heq : d' = d
    · subst heq
      simp [hd]
    · simpa [heq, Function.update_of_ne (Ne.symm heq)] using hd
  | @pop d' rest hhand h =>
    rw [hhand] at hd
    simpa [Hand.held] using hd
  | @take d' args rest hhand h =>
    rw [hhand] at hd
    by_cases heq : d' = d
    · subst heq
      rw [h] at hd
      simpa [Hand.held] using hd
    · simpa [Hand.held, heq, Function.update_of_ne (Ne.symm heq)] using hd
  | @execute d' args hhand =>
    rw [hhand] at hd
    by_cases heq : d' = d
    · subst heq
      simpa [Hand.held] using hd
    · simpa [Hand.held, heq] using hd

/-- What one step keeps of the calls that have left their arguments. -/
theorem Inv.step_left (hi : Inv tr s) (h : Step s out s') (d : D) :
    ((s'.calls.filter (Call.left · d)).map Call.args).Perm (queuedOf d (tr ++ out)) := by
  have hd := hi.left d
  rw [queuedOf_append]
  cases h with
  | signal d' args => simpa [Call.left] using hd
  | @leave pre post d' args h =>
    rw [h] at hd
    by_cases heq : d' = d
    · subst heq
      simp only [Call.left, List.filter_append, List.filter_cons, List.map_append, queuedOf_queued,
        decide_true, ne_eq, reduceCtorEq, not_false_eq_true, not_true_eq_false, decide_false,
        Bool.and_true, Bool.and_false, Bool.false_eq_true, if_true, if_false, List.map_cons]
          at hd ⊢
      exact List.perm_middle.trans ((hd.cons args).trans (List.perm_append_singleton args _).symm)
    · simpa [Call.left, heq] using hd
  | @enter pre post d' args h =>
    rw [h] at hd
    by_cases heq : d' = d
    · simpa [Call.left, heq] using hd
    · simpa [Call.left, heq] using hd
  | pop | take | execute => simpa using hd

/-- **What one step keeps.** -/
theorem Inv.step (hi : Inv tr s) (h : Step s out s') : Inv (tr ++ out) s' :=
  ⟨hi.step_counted h, hi.step_logged h, hi.step_left h⟩

end Step

end Mail

end ChargingPile
