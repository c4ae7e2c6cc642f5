import ChargingPile.Lib.Machine
import ChargingPile.Post.Mail
import ChargingPile.Queue

/-!
# Calls across threads

A signal that a deliver has been added to (`utilities/deliver.hxx`) pushes the arguments of a
call on the deliver's own queue and then the deliver on the queue of its `Post`
(`utilities/post.cxx`). The polling thread pops a deliver and invokes it, which pops the
arguments and applies the function.

Every call is a thread of its own here, numbered in the order of the signals. A thread that makes
several calls one after the other makes each of them after the one before has returned, and a
function that makes calls while it is applied makes them while the polling thread is at `apply`:
their runs are among those of the model. A run is any interleaving of single accesses: an event
lets one thread do its next one, which has no effect while the thread has to wait.
-/

namespace ChargingPile

namespace Post

/-- The threads: one for each call, and the polling thread. -/
inductive Thread
  | call (i : Nat)
  | poller
deriving DecidableEq, Repr

/-- Where a call is: in `ctxQueue.push`, in `outer->queue.push`, or at its end. -/
inductive Place
  | push (p : Queue.PushAt)
  | enqueue (p : Queue.PushAt)
  | returned
deriving DecidableEq, Repr

/-- A call of a deliver. -/
structure Call (D A : Type*) where
  deliver : D
  args : A
  place : Place

/-- Where the polling thread is: in `queue.pop`, and in `Deliver::invoke` in `ctxQueue.empty`, in
`ctxQueue.pop` or in the function. -/
inductive Poll (D A : Type*)
  | pop (p : Queue.PopAt D)
  | empty (d : D) (p : Queue.EmptyAt)
  | ctxPop (d : D) (p : Queue.PopAt A)
  | apply (d : D) (args : A)

end Post

/-- A `Post` with its delivers `D`, the calls that have been made and the polling thread. -/
structure Post (D A : Type*) where
  queue : Queue Post.Thread D
  ctx : D → Queue Post.Thread A
  calls : List (Post.Call D A)
  poller : Post.Poll D A

namespace Post

variable {D A : Type*}

/-- A new post. -/
def new : Post D A := ⟨.new, fun _ => .new, [], .pop .lock⟩

section Model

variable [DecidableEq D]

/-- The signal of a long-term deliver: `ctxQueue.push`, then `enqueue`. -/
def addTo (s : Post D A) (i : Nat) (c : Call D A) : Option (Post D A × List (Mail.Output D A)) :=
  match c.place with
  | .push p =>
    ((s.ctx c.deliver).push (.call i) c.args p).map fun (queue, next) =>
      ({ s with
          ctx := Function.update s.ctx c.deliver queue
          calls := s.calls.set i { c with place := next.elim .push fun _ => .enqueue .lock } },
        if p = .push then [.queued c.deliver c.args] else [])
  | .enqueue p =>
    (s.queue.push (.call i) c.deliver p).map fun (queue, next) =>
      ({ s with
          queue
          calls := s.calls.set i { c with place := next.elim .enqueue fun _ => .returned } }, [])
  | .returned => none

/-- `Post::poll` with `PollType::Forever`, and `Deliver::invoke`. -/
def poll (s : Post D A) : Option (Post D A × List (Mail.Output D A)) :=
  match s.poller with
  | .pop p =>
    (s.queue.pop .poller p).map fun (queue, next) =>
      ({ s with queue, poller := next.elim .pop fun front => .empty front .lock }, [])
  | .empty d p =>
    ((s.ctx d).empty .poller p).map fun (queue, next) =>
      ({ s with
          ctx := Function.update s.ctx d queue
          poller := next.elim (.empty d) fun result => if result then .pop .lock
            else .ctxPop d .lock },
        [])
  | .ctxPop d p =>
    ((s.ctx d).pop .poller p).map fun (queue, next) =>
      ({ s with ctx := Function.update s.ctx d queue, poller := next.elim (.ctxPop d) (.apply d) },
        [])
  | .apply d args => some ({ s with poller := .pop .lock }, [.executed d args])

/-- The next access of a thread, `none` if it has to wait or has none. -/
def advance (s : Post D A) : Thread → Option (Post D A × List (Mail.Output D A))
  | .call i => s.calls[i]?.bind (s.addTo i)
  | .poller => s.poll

/-- What happens to a post: a signal makes a call, or a thread goes on. -/
inductive Event (D A : Type*)
  | signal (d : D) (args : A)
  | thread (θ : Thread)

/-- A post and what can be seen of it. -/
def machine : Machine (Post D A) (Event D A) (Mail.Output D A) where
  step s
    | .signal d args => ({ s with calls := s.calls ++ [⟨d, args, .push .lock⟩] }, [])
    | .thread θ => (s.advance θ).getD (s, [])

end Model

/-! ## What a post is an implementation of -/

/-- How far a call has come. -/
def Place.phase : Place → Mail.Phase
  | .push .lock | .push .push => .calling
  | .push .set | .push .unlock | .enqueue .lock | .enqueue .push => .owing
  | .enqueue .set | .enqueue .unlock | .returned => .entered

/-- What the polling thread has in its hand. -/
def Poll.hand : Poll D A → Mail.Hand D A
  | .pop (.release d) => .serving d
  | .pop _ => .free
  | .empty d _ => .serving d
  | .ctxPop d (.release args) => .holding d args
  | .ctxPop d _ => .serving d
  | .apply d args => .holding d args

/-- The polling thread has found no arguments. -/
def Poll.astray : Poll D A → Bool
  | .empty _ (.unlock true) => true
  | .ctxPop _ .unlock | .ctxPop _ .wait | .ctxPop _ .relock => true
  | _ => false

/-- A call without its places. -/
def Call.view (c : Call D A) : Mail.Call D A := ⟨c.deliver, c.args, c.place.phase⟩

/-- A post without its threads. -/
def view (s : Post D A) : Mail D A :=
  ⟨s.queue.q, fun d => (s.ctx d).q, s.calls.map Call.view, s.poller.hand⟩

section Refinement

variable {s s' : Post D A} {out : List (Mail.Output D A)}

/-- The list around one of the calls. -/
theorem exists_split {α : Type*} {l : List α} {i : Nat} {c : α} (h : l[i]? = some c) :
    ∃ pre post, l = pre ++ c :: post ∧ ∀ c', l.set i c' = pre ++ c' :: post := by
  obtain ⟨hi, rfl⟩ := List.getElem?_eq_some_iff.mp h
  refine ⟨l.take i, l.drop (i + 1), ?_,
    fun c' => List.set_eq_take_append_cons_drop.trans (if_pos hi)⟩
  rw [← List.drop_eq_getElem_cons hi, List.take_append_drop]

/-- A call that goes on within its phase. -/
theorem map_view_set {i : Nat} {c : Call D A} (hc : s.calls[i]? = some c) {place : Place}
    (hphase : place.phase = c.place.phase) :
    (s.calls.set i { c with place }).map Call.view = s.calls.map Call.view := by
  obtain ⟨pre, post, hcalls, hset⟩ := exists_split hc
  rw [hset, hcalls, List.map_append, List.map_append, List.map_cons, List.map_cons, Call.view,
    hphase]
  rfl

variable [DecidableEq D]

/-- The queues of the delivers after one of them has been changed. -/
theorem ctx_update (d : D) (queue : Queue Thread A) :
    (fun d' => (Function.update s.ctx d queue d').q) =
      Function.update (fun d' => (s.ctx d').q) d queue.q := by
  funext d'
  obtain rfl | hne := eq_or_ne d' d
  · rw [Function.update_self, Function.update_self]
  · rw [Function.update_of_ne hne, Function.update_of_ne hne]

/-- A change of a deliver's queue that leaves its contents alone. -/
theorem ctx_update_of_eq {d : D} {queue : Queue Thread A} (h : queue.q = (s.ctx d).q) :
    (fun d' => (Function.update s.ctx d queue d').q) = fun d' => (s.ctx d').q := by
  rw [ctx_update, h]
  exact Function.update_eq_self d _

/-- A step of the faithful model is one of the abstract model, or cannot be seen in it. -/
def Refines (s : Post D A) (out : List (Mail.Output D A)) (s' : Post D A) : Prop :=
  s'.view = s.view ∧ out = [] ∨ Mail.Step s.view out s'.view

/-- A step that leaves the contents of all queues, the phases of all calls and the hand alone. -/
theorem Refines.of_eq (hqueue : s'.queue.q = s.queue.q)
    (hctx : (fun d => (s'.ctx d).q) = fun d => (s.ctx d).q)
    (hcalls : s'.calls.map Call.view = s.calls.map Call.view)
    (hhand : s'.poller.hand = s.poller.hand) :
    Refines s [] s' := by
  refine .inl ⟨?_, rfl⟩
  rw [view, view, hqueue, hctx, hcalls, hhand]

/-- A step to a state with the contents, phases and hand of an abstract one. -/
theorem Refines.of_step {t : Mail D A} (h : Mail.Step s.view out t) (hqueue : s'.queue.q = t.queue)
    (hctx : (fun d => (s'.ctx d).q) = t.ctx) (hcalls : s'.calls.map Call.view = t.calls)
    (hhand : s'.poller.hand = t.hand) : Refines s out s' := by
  refine .inr ?_
  rw [view.eq_1 s', hqueue, hctx, hcalls, hhand]
  exact h

/-- A call makes abstract steps. -/
theorem addTo_refines {i : Nat} {c : Call D A} (hc : s.calls[i]? = some c)
    (h : s.addTo i c = some (s', out)) : Refines s out s' := by
  obtain ⟨d, args, place⟩ := c
  obtain ⟨pre, post, hcalls, hset⟩ := exists_split hc
  cases place with
  | push p =>
    obtain ⟨⟨queue, next⟩, hpush, heq⟩ := Option.map_eq_some_iff.mp h
    cases heq
    cases p with
    | lock =>
      obtain ⟨-, heq⟩ := Queue.map_lock_eq_some hpush
      cases heq
      exact .of_eq rfl (ctx_update_of_eq rfl) (map_view_set hc rfl) rfl
    | push =>
      cases hpush
      -- the arguments are left
      have hview :
          s.view.calls = pre.map Call.view ++ ⟨d, args, .calling⟩ :: post.map Call.view := by
        rw [view, hcalls, List.map_append]
        rfl
      exact .of_step (.leave hview) rfl (ctx_update d _) (by rw [hset, List.map_append]; rfl) rfl
    | set =>
      cases hpush
      exact .of_eq rfl (ctx_update_of_eq rfl) (map_view_set hc rfl) rfl
    | unlock =>
      cases hpush
      exact .of_eq rfl (ctx_update_of_eq rfl) (map_view_set hc rfl) rfl
  | enqueue p =>
    obtain ⟨⟨queue, next⟩, hpush, heq⟩ := Option.map_eq_some_iff.mp h
    cases heq
    cases p with
    | lock =>
      obtain ⟨-, heq⟩ := Queue.map_lock_eq_some hpush
      cases heq
      exact .of_eq rfl rfl (map_view_set hc rfl) rfl
    | push =>
      cases hpush
      -- the deliver is entered
      have hview :
          s.view.calls = pre.map Call.view ++ ⟨d, args, .owing⟩ :: post.map Call.view := by
        rw [view, hcalls, List.map_append]
        rfl
      exact .of_step (.enter hview) rfl rfl (by rw [hset, List.map_append]; rfl) rfl
    | set =>
      cases hpush
      exact .of_eq rfl rfl (map_view_set hc rfl) rfl
    | unlock =>
      cases hpush
      exact .of_eq rfl rfl (map_view_set hc rfl) rfl
  | returned => cases h

/-- The polling thread makes abstract steps, unless it finds no arguments. -/
theorem poll_refines (hastray : s.poller.astray = false) (h : s.poll = some (s', out)) :
    Refines s out s' := by
  obtain ⟨queue, ctx, calls, poller⟩ := s
  cases poller with
  | pop p =>
    obtain ⟨⟨queue', next⟩, hpop, heq⟩ := Option.map_eq_some_iff.mp h
    cases heq
    cases p with
    | lock | relock =>
      obtain ⟨-, heq⟩ := Queue.map_lock_eq_some hpop
      cases heq
      exact .of_eq rfl rfl rfl rfl
    | test =>
      cases hpop
      cases hq : queue.q with
      | nil => exact .of_eq rfl rfl rfl rfl
      | cons => exact .of_eq rfl rfl rfl rfl
    | unlock =>
      cases hpop
      exact .of_eq rfl rfl rfl rfl
    | wait =>
      obtain ⟨-, rfl, rfl⟩ := Queue.wait_eq_some hpop
      exact .of_eq rfl rfl rfl rfl
    | take =>
      obtain ⟨d, hq, -, -, rfl⟩ := Queue.take_eq_some hpop
      exact .of_step (.pop rfl hq) rfl rfl rfl rfl
    | release d =>
      cases hpop
      exact .of_eq rfl rfl rfl rfl
  | empty d p =>
    obtain ⟨⟨queue', next⟩, hempty, heq⟩ := Option.map_eq_some_iff.mp h
    cases heq
    cases p with
    | lock =>
      obtain ⟨-, heq⟩ := Queue.map_lock_eq_some hempty
      cases heq
      exact .of_eq rfl (ctx_update_of_eq rfl) rfl rfl
    | test =>
      cases hempty
      exact .of_eq rfl (ctx_update_of_eq rfl) rfl rfl
    | unlock result =>
      cases hempty
      cases result with
      | true => cases hastray
      | false => exact .of_eq rfl (ctx_update_of_eq rfl) rfl rfl
  | ctxPop d p =>
    obtain ⟨⟨queue', next⟩, hpop, heq⟩ := Option.map_eq_some_iff.mp h
    cases heq
    cases p with
    | lock =>
      obtain ⟨-, heq⟩ := Queue.map_lock_eq_some hpop
      cases heq
      exact .of_eq rfl (ctx_update_of_eq rfl) rfl rfl
    | test =>
      cases hpop
      cases hq : (ctx d).q with
      | nil => exact .of_eq rfl (ctx_update_of_eq rfl) rfl rfl
      | cons => exact .of_eq rfl (ctx_update_of_eq rfl) rfl rfl
    | unlock | wait | relock => cases hastray
    | take =>
      obtain ⟨args, hq, -, -, rfl⟩ := Queue.take_eq_some hpop
      exact .of_step (.take rfl hq) rfl (ctx_update d _) rfl rfl
    | release args =>
      cases hpop
      exact .of_eq rfl (ctx_update_of_eq rfl) rfl rfl
  | apply d args =>
    cases h
    exact .of_step (.execute rfl) rfl rfl rfl rfl

end Refinement

end Post

end ChargingPile
