import Mathlib.Data.List.Basic

/-!
# A link that numbers its requests and may lose them

A client sends numbered requests to a server and gets numbered answers back. Both directions are
queues: the server takes the oldest request that is left, the client the oldest answer. Any request
and any answer may be lost. On such a link an answer says something about every request before it:
when the answer to request `i` is still under way or has just arrived, whatever the link still
holds was sent after `i` (`Ordered.lt_of_answer`).
-/

namespace ChargingPile

/-- The requests under way and not yet served, and the answers under way, oldest first, each with
the number of its request. -/
structure Link (ρ α : Type*) where
  nextId : Nat
  requests : List (Nat × ρ)
  answers : List (Nat × α)

namespace Link

variable {ρ α : Type*}

/-- The link with nothing under way. -/
def empty : Link ρ α := ⟨0, [], []⟩

/-- A new request, with the next number. -/
def send (l : Link ρ α) (r : ρ) : Link ρ α :=
  { l with nextId := l.nextId + 1, requests := l.requests ++ [(l.nextId, r)] }

/-- The server answers the oldest request. -/
def serve (l : Link ρ α) (a : α) : Link ρ α :=
  match l.requests with
  | [] => l
  | (i, _) :: rs => { l with requests := rs, answers := l.answers ++ [(i, a)] }

theorem serve_cons {l : Link ρ α} {i : Nat} {r : ρ} {rs : List (Nat × ρ)}
    (h : l.requests = (i, r) :: rs) (a : α) :
    l.serve a = ⟨l.nextId, rs, l.answers ++ [(i, a)]⟩ := by
  simp [serve, h]

/-- The `n`-th request is lost. -/
def loseRequest (l : Link ρ α) (n : Nat) : Link ρ α := { l with requests := l.requests.eraseIdx n }

/-- The `n`-th answer leaves the link: it is lost, or the first one is taken by the client. -/
def loseAnswer (l : Link ρ α) (n : Nat) : Link ρ α := { l with answers := l.answers.eraseIdx n }

/-- The numbers under way, in the order in which they were sent. -/
def ids (l : Link ρ α) : List Nat := l.answers.map Prod.fst ++ l.requests.map Prod.fst

/-- Numbers are never used twice, and the answers under way are older than the requests. -/
structure Ordered (l : Link ρ α) : Prop where
  sorted : l.ids.Pairwise (· < ·)
  fresh : ∀ i ∈ l.ids, i < l.nextId

namespace Ordered

variable {l : Link ρ α}

theorem empty : (Link.empty : Link ρ α).Ordered := ⟨.nil, by simp [Link.empty, ids]⟩

/-- Whatever only takes messages away keeps the order. -/
theorem of_sublist {l' : Link ρ α} (h : l.Ordered) (hsub : l'.ids.Sublist l.ids)
    (hid : l'.nextId = l.nextId) : l'.Ordered :=
  ⟨h.sorted.sublist hsub, fun i hi => hid ▸ h.fresh i (hsub.subset hi)⟩

theorem send (h : l.Ordered) (r : ρ) : (l.send r).Ordered := by
  have hids : (l.send r).ids = l.ids ++ [l.nextId] := by simp [Link.send, ids]
  refine ⟨?_, ?_⟩
  · rw [hids, List.pairwise_append]
    refine ⟨h.sorted, List.pairwise_singleton _ _, ?_⟩
    intro i hi j hj
    rw [List.mem_singleton.1 hj]
    exact h.fresh i hi
  · intro i hi
    rw [hids, List.mem_append, List.mem_singleton] at hi
    have hnext : (l.send r).nextId = l.nextId + 1 := rfl
    rcases hi with hi | rfl
    · have := h.fresh i hi
      omega
    · omega

theorem serve (h : l.Ordered) (a : α) : (l.serve a).Ordered := by
  refine h.of_sublist ?_ ?_ <;> unfold Link.serve <;> split
  · exact .refl _
  next i r rs hr => simp [ids, hr]
  · rfl
  · rfl

theorem loseRequest (h : l.Ordered) (n : Nat) : (l.loseRequest n).Ordered :=
  h.of_sublist (((List.eraseIdx_sublist _ _).map _).append_left _) rfl

theorem loseAnswer (h : l.Ordered) (n : Nat) : (l.loseAnswer n).Ordered :=
  h.of_sublist (((List.eraseIdx_sublist _ _).map _).append_right _) rfl

/-- **The order rule.** A request that is still under way was sent after every request whose
answer is under way. -/
theorem lt_of_answer (h : l.Ordered) {i j : Nat} {a : α} {r : ρ} (ha : (i, a) ∈ l.answers)
    (hr : (j, r) ∈ l.requests) : i < j :=
  (List.pairwise_append.1 h.sorted).2.2 i (List.mem_map_of_mem ha) j (List.mem_map_of_mem hr)

/-- Once the newest request is answered, nothing is left to serve. -/
theorem requests_nil (h : l.Ordered) {i : Nat} {a : α} (ha : (i, a) ∈ l.answers)
    (hnew : ∀ q ∈ l.requests, q.1 ≤ i) : l.requests = [] := by
  refine List.eq_nil_iff_forall_not_mem.2 ?_
  intro q hq
  have h₁ := h.lt_of_answer ha hq
  have h₂ := hnew q hq
  omega

end Ordered

end Link

end ChargingPile
