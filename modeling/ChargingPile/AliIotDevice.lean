import ChargingPile.StringView

/-!
# Messages of the cloud

`AliIotDevice` (`applications/ali_iot_device.cxx`) takes the topic of a message apart at its
slashes and decides by the segments and by the `method` in the payload which service the
message is for, or whether it announces an upgrade. It indexes the segments without counting
them, and a payload that is no JSON document gives a null pointer, which `Alink` dereferences.
An upgrade sets `otaRunning` before all of the announcement is read, and while it is set the
device does not log in again.

`onMessage_robust_iff` says for which messages nothing of this goes wrong (`Safe`).
-/

namespace ChargingPile

/-- The loop of `split`, with what it has read of the segment. -/
def splitLoop (splitter : Char) (segment : Text) : Text → List Text
  | [] => [segment]
  | c :: topic =>
    if c = splitter then segment :: splitLoop splitter [] topic
    else splitLoop splitter (segment ++ [c]) topic

/-- `split` (`utilities/string.cxx`). -/
def split (topic : Text) (splitter : Char) : List Text := splitLoop splitter [] topic

theorem splitLoop_eq_modifyHead (splitter : Char) (segment topic : Text) :
    splitLoop splitter segment topic = (topic.splitOn splitter).modifyHead (segment ++ ·) := by
  induction topic generalizing segment with
  | nil => rw [splitLoop, List.splitOn_nil, List.modifyHead_cons, List.append_nil]
  | cons c topic ih =>
    rw [splitLoop, List.splitOn_cons_eq_if_modifyHead]
    simp only [beq_iff_eq]
    split
    next =>
      rw [ih, List.modifyHead_cons, List.append_nil, List.nil_append_fun, List.modifyHead_id, id]
    next =>
      rw [ih, List.modifyHead_modifyHead]
      refine congrArg (List.modifyHead · _) (funext fun piece => ?_)
      exact List.append_assoc segment [c] piece

/-- The segments are what the loop over the positions of the separators takes out of the string. -/
theorem StringView.split_eq_split (s : StringView) (splitter : Char) :
    s.split splitter = .ok (ChargingPile.split s.chars splitter) := by
  rw [split_eq, ChargingPile.split, splitLoop_eq_modifyHead]
  exact congrArg Except.ok (congrFun List.modifyHead_id _).symm

namespace AliIotDevice

/-- Where the reply to a service goes: to the topic of the request, or to an `rrpc` response. -/
inductive ReplyTo
  | topic (topic : Text)
  | rrpc (requestId : Text)

/-- What a message makes the device do. -/
inductive Call
  | ota (version module url : Text) (size : Int32)
  | service (name id : Text) (params : Json.Value) (replyTo : ReplyTo)

/-- What goes wrong in the dispatch: a segment is read that is not there, a null pointer is
dereferenced, both of which are undefined, or an exception is thrown. -/
inductive Fault
  | outOfRange
  | nullDocument
  | thrown (e : Json.Error)

end AliIotDevice

/-- `AliIotDevice`: the flag that a message may change, and the calls that messages have made. -/
structure AliIotDevice where
  otaRunning : Bool := false
  calls : List AliIotDevice.Call := []

namespace AliIotDevice

/-- Code that handles a message. -/
abbrev Dispatch := EStateM Fault AliIotDevice

/-- `topics[i]` and `methods[i]`. -/
def segment (l : List Text) (i : Nat) : Dispatch Text :=
  match l[i]? with
  | some t => pure t
  | none => throw .outOfRange

/-- What `Json` returns or throws. -/
def lift {α : Type} : Except Json.Error α → Dispatch α
  | .ok a => pure a
  | .error e => throw (.thrown e)

section
variable (parse : Text → Option Json.Value) (services : List Text)

/-- `Alink::Reply::from` and `Alink::Request::from`, where `parse` is `cJSON_Parse`. The document
is used right after that. -/
def document (data : Text) : Dispatch Json.Value :=
  match parse data with
  | some v => pure v
  | none => throw .nullDocument

/-- `topics[1] == "ota" && topics[2] == "device" && topics[3] == "upgrade"`. -/
def isUpgrade (topics : List Text) : Dispatch Bool := do
  if (← segment topics 1) = "ota".toList then
    if (← segment topics 2) = "device".toList then
      return (← segment topics 3) = "upgrade".toList
    else return false
  else return false

/-- The version and the module of an upgrade, which are read first. -/
def announced (d : Json.Value) : Except Json.Error (Text × Text) := do
  let version ← d.getString "version".toList
  if ← d.contains "module".toList then return (version, ← d.getString "module".toList)
  else return (version, "default".toList)

/-- The place and the size of an upgrade. -/
def source (d : Json.Value) : Except Json.Error (Text × Int32) :=
  return (← d.getString "url".toList, ← d.getInt "size".toList)

/-- The branch for an upgrade. -/
def upgrade (reply : Json.Value) : Dispatch Unit := do
  let d := reply.getOrCreateItem "data".toList
  let (version, module) ← lift (announced d)
  modify fun s => { s with otaRunning := true }
  let (url, size) ← lift (source d)
  modify fun s => { s with calls := s.calls ++ [.ota version module url size] }

/-- The service is called, if there is one of that name. -/
def callService (request : Json.Value) (name : Text) (replyTo : ReplyTo) : Dispatch Unit := do
  if name ∈ services then
    let id ← lift (request.getOrCreateItem "id".toList).toString
    let params := request.getOrCreateItem "params".toList
    modify fun s => { s with calls := s.calls ++ [.service name id params replyTo] }

/-- The action for `thing`. -/
def thing (topic : Text) (topics : List Text) (request : Json.Value) : Dispatch Unit := do
  if (← segment topics 5) = "service".toList then
    let identifier ← segment topics 6
    callService services request identifier (.topic topic)

/-- The action for `rrpc`. -/
def rrpc (topics methods : List Text) (request : Json.Value) : Dispatch Unit := do
  let serviceName ← segment methods 2
  let requestId ← segment topics 6
  callService services request serviceName (.rrpc requestId)

/-- The branch for a request. -/
def handleRequest (topic : Text) (topics : List Text) (request : Json.Value) : Dispatch Unit := do
  let methods := split (← lift (request.getString "method".toList)) '.'
  let thingOrRrpc ← segment topics 4
  if thingOrRrpc = "thing".toList then thing services topic topics request
  else if thingOrRrpc = "rrpc".toList then rrpc services topics methods request

/-- The handler of `mqtt->onMessage`. -/
def onMessage (topic data : Text) : Dispatch Unit := do
  let topics := split topic '/'
  if ← isUpgrade topics then upgrade (← document parse data)
  else handleRequest services topic topics (← document parse data)

end

/-! ## Which messages are handled well -/

/-- The topic is that of an upgrade. -/
def Upgrade (topics : List Text) : Prop :=
  topics[1]? = some "ota".toList ∧ topics[2]? = some "device".toList ∧
    topics[3]? = some "upgrade".toList

instance (topics : List Text) : Decidable (Upgrade topics) :=
  inferInstanceAs (Decidable (_ ∧ _ ∧ _))

/-- Nothing undefined was done from `s` on, and nothing was changed unless `W` holds. -/
def Robust (W : Prop) (s : AliIotDevice) : EStateM.Result Fault AliIotDevice Unit → Prop
  | .ok _ s' => s' ≠ s → W
  | .error (.thrown _) s' => s' ≠ s → W
  | .error .outOfRange _ => False
  | .error .nullDocument _ => False

section
variable (parse : Text → Option Json.Value) (services : List Text)

/-- The message has a known topic and a payload with what that topic needs. -/
inductive WellFormed (topic data : Text) : Prop
  | upgrade (v : Json.Value) (hv : parse data = some v) (htopic : Upgrade (split topic '/'))
      (p : Text × Text) (hp : announced (v.getOrCreateItem "data".toList) = .ok p)
      (q : Text × Int32) (hq : source (v.getOrCreateItem "data".toList) = .ok q)
  | service (v : Json.Value) (hv : parse data = some v) (htopic : ¬ Upgrade (split topic '/'))
      (hthing : (split topic '/')[4]? = some "thing".toList)
      (htype : (split topic '/')[5]? = some "service".toList)
      (name : Text) (hname : (split topic '/')[6]? = some name) (hmem : name ∈ services)
      (method : Text) (hmethod : v.getString "method".toList = .ok method)
      (id : Text) (hid : (v.getOrCreateItem "id".toList).toString = .ok id)
  | rrpc (v : Json.Value) (hv : parse data = some v) (htopic : ¬ Upgrade (split topic '/'))
      (hrrpc : (split topic '/')[4]? = some "rrpc".toList)
      (requestId : Text) (hrequest : (split topic '/')[6]? = some requestId)
      (method : Text) (hmethod : v.getString "method".toList = .ok method)
      (name : Text) (hname : (split method '.')[2]? = some name) (hmem : name ∈ services)
      (id : Text) (hid : (v.getOrCreateItem "id".toList).toString = .ok id)

/-- The topic has the segments that are read to see whether it is that of an upgrade. -/
def Decided (topics : List Text) : Prop :=
  1 < topics.length ∧ (topics[1]? = some "ota".toList → 2 < topics.length ∧
    (topics[2]? = some "device".toList → 3 < topics.length))

/-- The topic of a request and its method have the segments that are read for it. -/
def Addressed (topics methods : List Text) : Prop :=
  4 < topics.length ∧
  (topics[4]? = some "thing".toList → 5 < topics.length ∧
    (topics[5]? = some "service".toList → 6 < topics.length)) ∧
  (topics[4]? = some "rrpc".toList → 2 < methods.length ∧ 6 < topics.length)

/-- The messages for which nothing goes wrong: the payload is a document, an upgrade that
gives its version gives all of the announcement, and a request with a method has the
segments that are read. -/
structure Safe (topic data : Text) : Prop where
  decided : Decided (split topic '/')
  document : (parse data).isSome
  upgrade : ∀ v, parse data = some v → Upgrade (split topic '/') →
    ∀ p, announced (v.getOrCreateItem "data".toList) = .ok p →
      ∃ q, source (v.getOrCreateItem "data".toList) = .ok q
  request : ∀ v, parse data = some v → ¬ Upgrade (split topic '/') →
    ∀ method, v.getString "method".toList = .ok method →
      Addressed (split topic '/') (split method '.')

end

section
variable {parse : Text → Option Json.Value} {services topics : List Text} {s : AliIotDevice}

theorem segment_run_some {i : Nat} {t : Text} (h : topics[i]? = some t) :
    (segment topics i).run s = .ok t s := by
  rw [segment, h]
  rfl

theorem segment_run_none {i : Nat} (h : topics[i]? = none) :
    (segment topics i).run s = .error .outOfRange s := by
  rw [segment, h]
  rfl

theorem lt_of_some {i : Nat} {t : Text} (h : topics[i]? = some t) : i < topics.length :=
  (List.getElem?_eq_some_iff.1 h).1

theorem not_lt_of_none {i : Nat} (h : topics[i]? = none) : ¬ i < topics.length :=
  Nat.not_lt.2 (List.getElem?_eq_none_iff.1 h)

/-- The topic is compared with that of an upgrade if it has the segments for it. -/
theorem isUpgrade_run (topics : List Text) (s : AliIotDevice) :
    Decided topics ∧ (isUpgrade topics).run s = .ok (decide (Upgrade topics)) s ∨
      ¬ Decided topics ∧ (isUpgrade topics).run s = .error .outOfRange s := by
  rw [isUpgrade, EStateM.run_bind]
  cases h₁ : topics[1]? with
  | none =>
    rw [segment_run_none h₁]
    exact .inr ⟨fun h => not_lt_of_none h₁ h.1, rfl⟩
  | some t₁ =>
    rw [segment_run_some h₁]
    dsimp only
    split
    next hota =>
      subst hota
      rw [EStateM.run_bind]
      cases h₂ : topics[2]? with
      | none =>
        rw [segment_run_none h₂]
        exact .inr ⟨fun h => not_lt_of_none h₂ (h.2 h₁).1, rfl⟩
      | some t₂ =>
        rw [segment_run_some h₂]
        dsimp only
        split
        next hdevice =>
          subst hdevice
          rw [EStateM.run_bind]
          cases h₃ : topics[3]? with
          | none =>
            rw [segment_run_none h₃]
            exact .inr ⟨fun h => not_lt_of_none h₃ ((h.2 h₁).2 h₂), rfl⟩
          | some t₃ =>
            rw [segment_run_some h₃]
            refine .inl ⟨⟨lt_of_some h₁, fun _ => ⟨lt_of_some h₂, fun _ => lt_of_some h₃⟩⟩, ?_⟩
            have hiff : Upgrade topics ↔ t₃ = "upgrade".toList := by
              simp only [Upgrade, h₁, h₂, h₃, true_and, Option.some_inj]
            rw [decide_eq_decide.2 hiff]
            rfl
        next hdevice =>
          have hno : topics[2]? ≠ some "device".toList := by
            rw [h₂]
            exact fun h => hdevice (Option.some.inj h)
          refine .inl ⟨⟨lt_of_some h₁, fun _ => ⟨lt_of_some h₂, fun h => absurd h hno⟩⟩, ?_⟩
          rw [decide_eq_false fun h : Upgrade topics => hno h.2.1]
          rfl
    next hota =>
      have hno : topics[1]? ≠ some "ota".toList := by
        rw [h₁]
        exact fun h => hota (Option.some.inj h)
      refine .inl ⟨⟨lt_of_some h₁, fun h => absurd h hno⟩, ?_⟩
      rw [decide_eq_false fun h : Upgrade topics => hno h.1]
      rfl

/-- An upgrade of which only a part can be read has set `otaRunning`. -/
theorem upgrade_run (reply : Json.Value) (s : AliIotDevice) :
    (∃ e, announced (reply.getOrCreateItem "data".toList) = .error e ∧
      (upgrade reply).run s = .error (.thrown e) s) ∨
    ∃ p, announced (reply.getOrCreateItem "data".toList) = .ok p ∧
      ((∃ e, source (reply.getOrCreateItem "data".toList) = .error e ∧
          (upgrade reply).run s = .error (.thrown e) { s with otaRunning := true }) ∨
        ∃ q s', source (reply.getOrCreateItem "data".toList) = .ok q ∧
          (upgrade reply).run s = .ok () s') := by
  simp only [upgrade]
  generalize reply.getOrCreateItem "data".toList = d
  cases hp : announced d with
  | error e => exact .inl ⟨e, rfl, rfl⟩
  | ok p =>
    refine .inr ⟨p, rfl, ?_⟩
    cases hq : source d with
    | error e => exact .inl ⟨e, rfl, rfl⟩
    | ok q => exact .inr ⟨q, _, rfl, rfl⟩

/-- A request changes something if its service is known and it has an id. -/
theorem callService_robust {W : Prop} {request : Json.Value} {name : Text} (replyTo : ReplyTo)
    (hW : name ∈ services →
      ∀ id, (request.getOrCreateItem "id".toList).toString = .ok id → W) :
    Robust W s ((callService services request name replyTo).run s) := by
  rw [callService]
  split
  next hmem =>
    cases hid : (request.getOrCreateItem "id".toList).toString with
    | error e => exact fun h => absurd rfl h
    | ok id => exact fun _ => hW hmem id hid
  next => exact fun h => absurd rfl h

theorem thing_robust_iff {W : Prop} {topic : Text} {request : Json.Value}
    (hW : topics[5]? = some "service".toList → ∀ name, topics[6]? = some name → name ∈ services →
      ∀ id, (request.getOrCreateItem "id".toList).toString = .ok id → W) :
    Robust W s ((thing services topic topics request).run s) ↔
      5 < topics.length ∧ (topics[5]? = some "service".toList → 6 < topics.length) := by
  rw [thing, EStateM.run_bind]
  cases h₅ : topics[5]? with
  | none =>
    rw [segment_run_none h₅]
    exact iff_of_false id fun h => not_lt_of_none h₅ h.1
  | some t =>
    rw [segment_run_some h₅]
    dsimp only
    split
    next hservice =>
      subst hservice
      rw [EStateM.run_bind]
      cases h₆ : topics[6]? with
      | none =>
        rw [segment_run_none h₆]
        exact iff_of_false id fun h => not_lt_of_none h₆ (h.2 rfl)
      | some name =>
        rw [segment_run_some h₆]
        exact iff_of_true (callService_robust _ (hW h₅ name h₆))
          ⟨lt_of_some h₅, fun _ => lt_of_some h₆⟩
    next hservice =>
      exact iff_of_true (fun h => absurd rfl h)
        ⟨lt_of_some h₅, fun h => absurd (Option.some.inj h) hservice⟩

theorem rrpc_robust_iff {W : Prop} {methods : List Text} {request : Json.Value}
    (hW : ∀ name, methods[2]? = some name → ∀ requestId, topics[6]? = some requestId →
      name ∈ services → ∀ id, (request.getOrCreateItem "id".toList).toString = .ok id → W) :
    Robust W s ((rrpc services topics methods request).run s) ↔
      2 < methods.length ∧ 6 < topics.length := by
  rw [rrpc, EStateM.run_bind]
  cases h₂ : methods[2]? with
  | none =>
    rw [segment_run_none h₂]
    exact iff_of_false id fun h => not_lt_of_none h₂ h.1
  | some name =>
    rw [segment_run_some h₂]
    dsimp only
    rw [EStateM.run_bind]
    cases h₆ : topics[6]? with
    | none =>
      rw [segment_run_none h₆]
      exact iff_of_false id fun h => not_lt_of_none h₆ h.2
    | some requestId =>
      rw [segment_run_some h₆]
      exact iff_of_true (callService_robust _ (hW name h₂ requestId h₆))
        ⟨lt_of_some h₂, lt_of_some h₆⟩

/-- A request with a method is handled well exactly if the segments are there. -/
theorem handleRequest_robust_iff {topic data : Text} {v : Json.Value} (hv : parse data = some v)
    (htopic : ¬ Upgrade (split topic '/')) {method : Text}
    (hmethod : v.getString "method".toList = .ok method) :
    Robust (WellFormed parse services topic data) s
        ((handleRequest services topic (split topic '/') v).run s) ↔
      Addressed (split topic '/') (split method '.') := by
  have hlift : (lift (v.getString "method".toList)).run s = .ok method s := by
    rw [hmethod]
    rfl
  rw [handleRequest, EStateM.run_bind, hlift]
  dsimp only
  rw [EStateM.run_bind]
  cases h₄ : (split topic '/')[4]? with
  | none =>
    rw [segment_run_none h₄]
    exact iff_of_false id fun h => not_lt_of_none h₄ h.1
  | some t =>
    rw [segment_run_some h₄]
    dsimp only
    split
    next hthing =>
      subst hthing
      rw [thing_robust_iff fun htype name hname hmem id hid =>
        .service v hv htopic h₄ htype name hname hmem method hmethod id hid]
      refine ⟨fun h => ⟨lt_of_some h₄, fun _ => h, fun hrrpc => ?_⟩, fun h => h.2.1 h₄⟩
      cases h₄.symm.trans hrrpc
    next hthing =>
      split
      next hrrpc =>
        subst hrrpc
        rw [rrpc_robust_iff fun name hname requestId hrequest hmem id hid =>
          .rrpc v hv htopic h₄ requestId hrequest method hmethod name hname hmem id hid]
        refine ⟨fun h => ⟨lt_of_some h₄, fun hthing => ?_, fun _ => h⟩, fun h => h.2.2 h₄⟩
        cases h₄.symm.trans hthing
      next hrrpc =>
        refine iff_of_true (fun h => absurd rfl h) ⟨lt_of_some h₄, ?_, ?_⟩
        · intro h
          exact absurd (Option.some.inj (h₄.symm.trans h)) hthing
        · intro h
          exact absurd (Option.some.inj (h₄.symm.trans h)) hrrpc

/-- What is done with a document, once the topic has the segments to decide that. -/
theorem onMessage_run {topic data : Text} {v : Json.Value} (hdecided : Decided (split topic '/'))
    (hv : parse data = some v) (s : AliIotDevice) :
    (onMessage parse services topic data).run s =
      if Upgrade (split topic '/') then (upgrade v).run s
      else (handleRequest services topic (split topic '/') v).run s := by
  have hdocument : (document parse data).run s = .ok v s := by
    rw [document, hv]
    rfl
  rcases isUpgrade_run (split topic '/') s with ⟨-, hrun⟩ | ⟨hno, -⟩
  · rw [onMessage, EStateM.run_bind, hrun]
    simp only [decide_eq_true_eq]
    split
    all_goals rw [EStateM.run_bind, hdocument]
  · exact absurd hdecided hno

/-- **Which messages of the cloud are handled well.** Whatever the state of the device, no segment
is read that is not there, no null document is dereferenced, and a message with an unknown topic or
a malformed payload changes nothing, exactly if the message is safe. -/
theorem onMessage_robust_iff (parse : Text → Option Json.Value) (services : List Text)
    (topic data : Text) :
    (∀ s, Robust (WellFormed parse services topic data) s
        ((onMessage parse services topic data).run s)) ↔
      Safe parse topic data := by
  constructor
  · intro h
    have hdecided : Decided (split topic '/') := by
      rcases isUpgrade_run (split topic '/') {} with ⟨hd, -⟩ | ⟨-, hrun⟩
      · exact hd
      · have hrobust := h {}
        rw [onMessage, EStateM.run_bind, hrun] at hrobust
        exact hrobust.elim
    have hdocument : (parse data).isSome := by
      rw [Option.isSome_iff_ne_none]
      intro hnone
      have hrobust := h {}
      rcases isUpgrade_run (split topic '/') {} with ⟨-, hrun⟩ | ⟨hno, -⟩
      · rw [onMessage, EStateM.run_bind, hrun] at hrobust
        simp only [document, hnone] at hrobust
        split at hrobust
        all_goals exact hrobust
      · exact hno hdecided
    refine ⟨hdecided, hdocument, ?_, ?_⟩
    · intro v hv hup p hp
      have hrobust := h {}
      rw [onMessage_run hdecided hv, if_pos hup] at hrobust
      rcases upgrade_run v {} with ⟨e, he, -⟩ | ⟨-, -, ⟨e, he, hrun⟩ | ⟨q, s', hq, -⟩⟩
      · cases he.symm.trans hp
      -- the announcement was read in part, and the device has changed
      · rw [hrun] at hrobust
        cases hrobust (fun hsame => Bool.noConfusion (congrArg otaRunning hsame)) with
        | upgrade w hw _ _ _ q hq =>
          obtain rfl := Option.some.inj (hv.symm.trans hw)
          cases he.symm.trans hq
        | service _ _ hno => exact absurd hup hno
        | rrpc _ _ hno => exact absurd hup hno
      · exact ⟨q, hq⟩
    · intro v hv hno method hmethod
      have hrobust := h {}
      rw [onMessage_run hdecided hv, if_neg hno] at hrobust
      exact (handleRequest_robust_iff hv hno hmethod).1 hrobust
  · intro h s
    obtain ⟨v, hv⟩ := Option.isSome_iff_exists.1 h.document
    rw [onMessage_run h.decided hv]
    split
    next hup =>
      rcases upgrade_run v s with ⟨e, -, hrun⟩ | ⟨p, hp, ⟨e, he, -⟩ | ⟨q, s', hq, hrun⟩⟩
      · rw [hrun]
        exact fun hne => absurd rfl hne
      · obtain ⟨q, hq⟩ := h.upgrade v hv hup p hp
        cases he.symm.trans hq
      · rw [hrun]
        exact fun _ => .upgrade v hv hup p hp q hq
    next hno =>
      cases hmethod : v.getString "method".toList with
      | error e =>
        have hlift : (lift (v.getString "method".toList)).run s = .error (.thrown e) s := by
          rw [hmethod]
          rfl
        rw [handleRequest, EStateM.run_bind, hlift]
        exact fun hne => absurd rfl hne
      | ok method =>
        exact (handleRequest_robust_iff hv hno hmethod).2 (h.request v hv hno method hmethod)

/-- A topic without a slash is dispatched by a segment that it does not have, a payload that is no
document is dereferenced, and an upgrade that is announced with its version alone is never started,
but has set `otaRunning`. -/
theorem onMessage_not_robust :
    (∀ parse services data, (onMessage parse services "reset".toList data).run {} =
      .error .outOfRange {}) ∧
    (∀ services data, (onMessage (fun _ => none) services "/sys/key/name/thing".toList data).run
      {} = .error .nullDocument {}) ∧
    ∀ services data, (onMessage (fun _ => some (.object [("data".toList,
        .object [("version".toList, .string "2".toList)])])) services
        "/ota/device/upgrade/key/name".toList data).run {} =
      .error (.thrown .itemNotFound) { otaRunning := true } :=
  ⟨fun _ _ _ => rfl, fun _ _ => rfl, fun _ _ => rfl⟩

end

end AliIotDevice

end ChargingPile
