import AuraLauncher.Plugin.Handle
import AuraLauncher.Runtime.Unread

/-!
# Whose answer a request takes

Which response a request over the handle of a plugin takes for its answer
(`launcher-plugin-host/src/lib.rs`, `PluginHandle::request`).

A request takes the next line, and the id of a response is not looked at. So it matters that the
next line is never one that was written for an earlier request. Where a request fails the plugin is
killed, and after that nothing is taken any more; but a tool request that fails leaves the plugin
running, and its answer may still come.

* `Matched` — the bound: every response that was taken has the id of its request, and no two
  requests have the same.
* `Exchange.Orderly`, `HandleCall.Orderly` — what the plugin writes during a call, and when.
* `Quiet` — no line waits to be read, or no line will be read; `readLine_quiet` is what keeps it.
* `matched_of_along` — orderly plugins are never taken at the wrong word.
-/

namespace AuraLauncher.Plugin

open AuraLauncher.Domain AuraLauncher.Ipc AuraLauncher.Lib AuraLauncher.Runtime
open AuraLauncher.Workflow (Json SerdeJson)

/-! ## What the plugin writes -/

/-- Every line ends the wait of a request. -/
def anyLine (_ : PluginLine) : Bool := true

/-- The event is no response, or the response to the request with the id. -/
def fits (id : ℕ) : ChildEvent PluginLine → Bool
  | .line (.ok resp) => resp.id == id
  | _ => true

/-- The plugin writes nothing before the request with the id, and then one line at most, which is
the response to it if it is a response. -/
def Exchange.Orderly (x : Exchange) (id : ℕ) : Prop :=
  answersIn anyLine x.before = 0 ∧ answersIn anyLine x.wait.arrivals ≤ 1 ∧
    ∀ e ∈ x.wait.arrivals, fits id e = true

instance (x : Exchange) (id : ℕ) : Decidable (x.Orderly id) :=
  inferInstanceAs (Decidable (_ ∧ _ ∧ _))

namespace HandleCall

/-- What happens during the request of a call. -/
def exchange : HandleCall → Exchange
  | .handshake x | .query _ _ x _ | .executeAction _ _ _ _ x _ | .toolList _ x
  | .toolOpen _ _ _ _ x | .toolEvent _ x | .toolClose _ x | .toolCancel _ _ x => x

/-- The call does not kill the plugin when its request fails. -/
def isTool : HandleCall → Bool
  | .handshake _ | .query .. | .executeAction .. => false
  | _ => true

/-- The plugin does not run any more, or it is orderly during the request of the call; and when a
tool request runs out of time, no line has come. -/
def Orderly (h : PluginHandle) (call : HandleCall) : Prop :=
  h.session.Gone ∨ call.exchange.Orderly (h.nextRequestId + 1) ∧
    (call.isTool = true → call.exchange.wait.late = true →
      answersIn anyLine call.exchange.wait.arrivals = 0)

instance (h : PluginHandle) (call : HandleCall) : Decidable (call.Orderly h) :=
  inferInstanceAs (Decidable (_ ∨ _ ∧ (_ → _ → _)))

end HandleCall

/-! ## Lines that wait -/

section lines

variable {p : ProcessSession PluginLine}

/-- No line waits to be read. -/
def Clean (p : ProcessSession PluginLine) : Prop := p.Tidy ∧ p.unread anyLine = 0

theorem Clean.observeAll (h : Clean p) {events : List (ChildEvent PluginLine)}
    (hevents : answersIn anyLine events = 0) : Clean (p.observeAll events) := by
  obtain ⟨htidy, hle⟩ := ProcessSession.unread_observeAll anyLine h.1 events
  exact ⟨htidy, by rw [h.2, hevents] at hle; exact Nat.le_zero.mp hle⟩

theorem Clean.not_mem (h : Clean p) (l : PluginLine) : .ok l ∉ p.stdoutLines := fun hl =>
  absurd (List.countP_eq_zero.mp h.2 _ hl) (by simp [itemIsAnswer, anyLine])

/-- What waits to be read was waiting before, or has come. -/
theorem mem_observeAll {l : PluginLine} {events : List (ChildEvent PluginLine)}
    (hl : .ok l ∈ (p.observeAll events).stdoutLines) :
    .ok l ∈ p.stdoutLines ∨ .line l ∈ events := by
  have hreceive : ∀ {p : ProcessSession PluginLine} {item : Except RuntimeError PluginLine},
      .ok l ∈ (p.receive item).stdoutLines → .ok l ∈ p.stdoutLines ∨ item = .ok l := by
    intro p item hmem
    unfold ProcessSession.receive at hmem
    split_ifs at hmem with hclosed
    · exact .inl hmem
    · exact (List.mem_append.mp hmem).imp_right fun h => (List.mem_singleton.mp h).symm
  have hobserve : ∀ {p : ProcessSession PluginLine} {e : ChildEvent PluginLine},
      .ok l ∈ (p.observe e).stdoutLines → .ok l ∈ p.stdoutLines ∨ e = .line l := by
    intro p e hmem
    cases e with
    | line l' => exact (hreceive hmem).imp_right fun h => by rw [Except.ok.inj h]
    | overlong => exact (hreceive hmem).imp_right fun h => by cases h
    | readError => exact (hreceive hmem).imp_right fun h => by cases h
    | closeStdout => exact .inl hmem
    | closeStdin => exact .inl hmem
    | exit code => exact .inl hmem
  unfold ProcessSession.observeAll at hl
  induction events generalizing p with
  | nil => exact .inl hl
  | cons e events ih =>
      rcases ih hl with hmem | hmem
      · exact (hobserve hmem).imp_right fun h => by rw [h]; exact List.mem_cons_self
      · exact .inr (List.mem_cons_of_mem e hmem)

/-- A child that was told to shut down does not run any more. -/
theorem gone_shutdown (p : ProcessSession PluginLine) (events : List (ChildEvent PluginLine)) :
    (p.shutdown events).2.Gone := by
  unfold ProcessSession.shutdown
  dsimp only
  cases hexited : (p.observeAll events).exited with
  | some code => exact (rfl : (some code).isSome = true)
  | none => exact ProcessSession.gone_kill _

theorem clean_of_nil (h : p.stdoutLines = []) : Clean p := by
  refine ⟨?_, by rw [ProcessSession.unread, h]; rfl⟩
  intro before after hsplit
  rw [h] at hsplit
  simp at hsplit

/-- Of one line that waits, none is left when it is read. -/
theorem clean_pop {q : ProcessSession PluginLine} {item : Except RuntimeError PluginLine}
    {rest : List (Except RuntimeError PluginLine)} (htidy : q.Tidy)
    (hle : q.unread anyLine ≤ 1) (hlines : q.stdoutLines = item :: rest) :
    Clean { q with stdoutLines := rest } := by
  refine ⟨?_, ?_⟩
  · intro before after hsplit
    exact htidy (item :: before) after (hlines.trans (congrArg (item :: ·) hsplit))
  · change rest.countP (itemIsAnswer anyLine) = 0
    rw [ProcessSession.unread, hlines, List.countP_cons] at hle
    rcases item with (_ | _ | _ | _ | _ | _ | _ | _) | l
    case error.transportBroken =>
      obtain ⟨rfl, -⟩ := htidy [] rest hlines
      rfl
    all_goals
      simp only [itemIsAnswer, anyLine, if_true] at hle
      omega

/-- **Reading the one line that comes.** With no line waiting and at most one coming, the line that
is read is the one that has come, and none waits after it, unless it came too late. -/
theorem readLine_clean (h : Clean p) {w : Wait PluginLine}
    (hone : answersIn anyLine w.arrivals ≤ 1) (timeout : String) :
    (∀ l, (p.readLine timeout w).1 = .ok l →
      .line l ∈ w.arrivals ∧ Clean (p.readLine timeout w).2) ∧
      ((w.late = true → answersIn anyLine w.arrivals = 0) → Clean (p.readLine timeout w).2) := by
  obtain ⟨htidy, hle⟩ := ProcessSession.unread_observeAll anyLine h.1 w.arrivals
  have hcame : ∀ l, .ok l ∈ (p.observeAll w.arrivals).stdoutLines →
      .ok l ∈ p.stdoutLines ∨ .line l ∈ w.arrivals := fun _ => mem_observeAll
  rw [h.2, Nat.zero_add] at hle
  unfold ProcessSession.readLine
  dsimp only
  generalize p.observeAll w.arrivals = q at htidy hle hcame ⊢
  cases w.late with
  | true =>
      refine ⟨fun l hl => (nomatch hl), fun hnone => ⟨htidy, ?_⟩⟩
      rw [hnone rfl] at hle
      exact Nat.le_zero.mp hle
  | false =>
      cases hlines : q.stdoutLines with
      | nil =>
          cases q.stdoutClosed with
          | true => exact ⟨fun l hl => (nomatch hl), fun _ => clean_of_nil rfl⟩
          | false => exact ⟨fun l hl => (nomatch hl), fun _ => clean_of_nil hlines⟩
      | cons item rest =>
          have hclean := clean_pop htidy (hle.trans hone) hlines
          refine ⟨?_, fun _ => hclean⟩
          intro l hl
          obtain rfl : item = .ok l := hl
          refine ⟨(hcame l ?_).resolve_left (h.not_mem l), hclean⟩
          rw [hlines]
          exact List.mem_cons_self

end lines

namespace PluginHandle

/-! ## What a handle keeps -/

/-- Every response that was taken for an answer has the id of its request, and the requests have
different ids. -/
structure Matched (h : PluginHandle) : Prop where
  id_eq : ∀ a ∈ h.answered, a.2.id = a.1
  increasing : h.answered.Pairwise fun a b => a.1 < b.1

/-- No line waits to be read, or what is written does not arrive any more. -/
def Quiet (h : PluginHandle) : Prop := h.session.Gone ∨ Clean h.session

/-- So far the handle has taken no wrong answer, and none to a request that is still to come. -/
structure Filed (h : PluginHandle) : Prop where
  matched : h.Matched
  le_next : ∀ a ∈ h.answered, a.1 ≤ h.nextRequestId

/-- What a handle keeps under calls during which the plugin is orderly. -/
structure Kept (h : PluginHandle) : Prop where
  quiet : h.Quiet
  filed : h.Filed

variable {h h' : PluginHandle}

theorem kept_started (m : PluginManifest) : (started m).Kept :=
  ⟨.inr ⟨ProcessSession.tidy_spawned _, rfl⟩, ⟨fun _ ha => (nomatch ha), .nil⟩,
    fun _ ha => (nomatch ha)⟩

/-- The records of a handle with the same answers and at least as many requests. -/
theorem Filed.congr (hfiled : h.Filed) (hanswered : h'.answered = h.answered)
    (hnext : h.nextRequestId ≤ h'.nextRequestId) : h'.Filed := by
  constructor
  case matched => exact ⟨hanswered ▸ hfiled.matched.id_eq, hanswered ▸ hfiled.matched.increasing⟩
  case le_next =>
    intro a ha
    rw [hanswered] at ha
    exact (hfiled.le_next a ha).trans hnext

/-- An answer to the next request is recorded. -/
theorem Filed.concat (hfiled : h.Filed) {resp : Response} (hid : resp.id = h.nextRequestId + 1)
    (hanswered : h'.answered = h.answered ++ [(h.nextRequestId + 1, resp)])
    (hnext : h'.nextRequestId = h.nextRequestId + 1) : h'.Filed := by
  have hmem : ∀ {a}, a ∈ h'.answered → a ∈ h.answered ∨ a = (h.nextRequestId + 1, resp) := by
    intro a ha
    rw [hanswered] at ha
    simpa using ha
  constructor
  case matched =>
    constructor
    case id_eq =>
      intro a ha
      rcases hmem ha with ha | rfl
      · exact hfiled.matched.id_eq a ha
      · exact hid
    case increasing =>
      rw [hanswered, List.pairwise_append]
      refine ⟨hfiled.matched.increasing, List.pairwise_singleton _ _, ?_⟩
      intro a ha b hb
      rw [List.mem_singleton.mp hb]
      exact Nat.lt_succ_of_le (hfiled.le_next a ha)
  case le_next =>
    intro a ha
    rw [hnext]
    rcases hmem ha with ha | rfl
    · exact (hfiled.le_next a ha).trans (Nat.le_succ _)
    · exact Nat.le_refl _

/-- A handle whose plugin is killed is quiet. -/
theorem Filed.kill (hfiled : h.Filed) : h.kill.Kept :=
  ⟨.inl (ProcessSession.gone_kill _), hfiled.congr rfl (Nat.le_refl _)⟩

/-- A request changes neither the records of the answers nor the ids. -/
theorem request_frame (req : Ipc.Request) (timeoutMs : ℕ) (x : Exchange) :
    (h.request req timeoutMs x).2.answered = h.answered ∧
      (h.request req timeoutMs x).2.nextRequestId = h.nextRequestId := by
  unfold request
  dsimp only
  split
  · exact ⟨rfl, rfl⟩
  · split <;> exact ⟨rfl, rfl⟩

/-- A request of which the line is not written. -/
theorem request_of_error {e : RuntimeError} {req : Ipc.Request} {x : Exchange}
    (hwrite : (h.session.observeAll x.before).writeLine = .error e) (timeoutMs : ℕ) :
    h.request req timeoutMs x = (.error (mapRuntimeError e), h.observe x.before) := by
  unfold request observe
  dsimp only
  rw [hwrite]

/-- A request of which the line is written, by the line that is read. -/
theorem request_of_ok {u : Unit} {x : Exchange}
    (hwrite : (h.session.observeAll x.before).writeLine = .ok u) (req : Ipc.Request)
    (timeoutMs : ℕ) :
    ∃ h' : PluginHandle,
      h'.session = ((h.session.observeAll x.before).readLine (durationDebug timeoutMs) x.wait).2 ∧
      ((∃ e, h.request req timeoutMs x = (.error e, h')) ∨
        ∃ resp, h.request req timeoutMs x = (.ok resp, h') ∧
          ((h.session.observeAll x.before).readLine (durationDebug timeoutMs) x.wait).1 =
            .ok (.ok resp)) := by
  unfold request observe
  dsimp only
  rw [hwrite]
  dsimp only
  generalize (h.session.observeAll x.before).readLine _ _ = o
  obtain ⟨e | (m | resp), p⟩ := o
  · exact ⟨_, rfl, .inl ⟨_, rfl⟩⟩
  · exact ⟨_, rfl, .inl ⟨_, rfl⟩⟩
  · exact ⟨_, rfl, .inr ⟨_, rfl, rfl⟩⟩

/-- **What a request takes.** Over a quiet handle, with an orderly plugin, a response that is taken
is the one to the request, and the handle is quiet afterwards unless the answer came too late. -/
theorem request_spec (hquiet : h.Quiet) (req : Ipc.Request) {x : Exchange}
    (hx : h.session.Gone ∨ x.Orderly req.id) (timeoutMs : ℕ) :
    (∀ resp, (h.request req timeoutMs x).1 = .ok resp →
      resp.id = req.id ∧ (h.request req timeoutMs x).2.Quiet) ∧
      (h.session.Gone ∨ (x.wait.late = true → answersIn anyLine x.wait.arrivals = 0) →
        (h.request req timeoutMs x).2.Quiet) := by
  by_cases hgone : h.session.Gone
  · have hafter := ProcessSession.Gone.observeAll hgone x.before
    rw [request_of_error (ProcessSession.Gone.writeLine hafter)]
    exact ⟨fun _ hok => (nomatch hok), fun _ => .inl hafter⟩
  · have horderly := hx.resolve_left hgone
    have hclean := (hquiet.resolve_left hgone).observeAll horderly.1
    cases hwrite : (h.session.observeAll x.before).writeLine with
    | error e =>
        rw [request_of_error hwrite]
        exact ⟨fun _ hok => (nomatch hok), fun _ => .inr hclean⟩
    | ok u =>
        obtain ⟨hread, hlate⟩ := readLine_clean hclean horderly.2.1 (durationDebug timeoutMs)
        obtain ⟨h', hsession, ⟨e, hrequest⟩ | ⟨resp, hrequest, hline⟩⟩ :=
          request_of_ok hwrite req timeoutMs
        · rw [hrequest]
          refine ⟨fun _ hok => (nomatch hok), fun hin => .inr ?_⟩
          exact hsession ▸ hlate (hin.resolve_left hgone)
        · rw [hrequest]
          obtain ⟨hcame, hclean'⟩ := hread _ hline
          have hquiet' : h'.Quiet := .inr (hsession ▸ hclean')
          refine ⟨?_, fun _ => hquiet'⟩
          intro resp' hok
          obtain rfl := Except.ok.inj hok
          exact ⟨by simpa [fits] using horderly.2.2 _ hcame, hquiet'⟩

/-! ## Calls -/

/-- With an orderly plugin, the next request takes no wrong answer, and leaves the handle quiet when
it is answered, or when no answer comes too late. -/
theorem Kept.ask (hkept : h.Kept) {x : Exchange}
    (hx : h.session.Gone ∨ x.Orderly (h.nextRequestId + 1)) (method : String) (params : Json)
    (timeoutMs : ℕ) :
    (h.ask method params timeoutMs x).2.Filed ∧
      ((∃ resp, (h.ask method params timeoutMs x).1 = .ok resp) ∨ h.session.Gone ∨
        (x.wait.late = true → answersIn anyLine x.wait.arrivals = 0) →
          (h.ask method params timeoutMs x).2.Quiet) := by
  obtain ⟨htaken, hnone⟩ := request_spec (h := h.takeId) hkept.quiet
    ⟨h.nextRequestId + 1, method, params⟩ hx timeoutMs
  obtain ⟨hanswered, hnext⟩ := request_frame (h := h.takeId)
    ⟨h.nextRequestId + 1, method, params⟩ timeoutMs x
  unfold PluginHandle.ask
  dsimp only
  generalize h.takeId.request _ timeoutMs x = o at htaken hnone hanswered hnext ⊢
  obtain ⟨e | resp, h'⟩ := o
  · refine ⟨hkept.filed.congr hanswered (hnext ▸ Nat.le_succ _), ?_⟩
    rintro (⟨resp, hresp⟩ | hin)
    · cases hresp
    · exact hnone hin
  · obtain ⟨hid, hquiet⟩ := htaken resp rfl
    exact ⟨hkept.filed.concat hid (congrArg (· ++ [(h.nextRequestId + 1, resp)]) hanswered) hnext,
      fun _ => hquiet⟩

/-- A request after whose failure the plugin is killed keeps the handle in order. -/
theorem Kept.askOrKill (hkept : h.Kept) {x : Exchange}
    (hx : h.session.Gone ∨ x.Orderly (h.nextRequestId + 1)) (method : String) (params : Json)
    (timeoutMs : ℕ) : (h.askOrKill method params timeoutMs x).2.Kept := by
  obtain ⟨hfiled, hquiet⟩ := hkept.ask hx method params timeoutMs
  unfold PluginHandle.askOrKill
  generalize h.ask method params timeoutMs x = o at hfiled hquiet ⊢
  obtain ⟨e | resp, h'⟩ := o
  · exact hfiled.kill
  · exact ⟨hquiet (.inl ⟨resp, rfl⟩), hfiled⟩

/-- The end of an invocation keeps the handle in order, whatever the plugin does. -/
theorem Kept.finishInvocation (hkept : h.Kept) (c : Closing) : (h.finishInvocation c).Kept := by
  obtain ⟨hanswered, hnext⟩ := request_frame (h := h.takeId)
    ⟨h.nextRequestId + 1, "shutdown", .object []⟩ 200 c.exchange
  unfold PluginHandle.finishInvocation
  split_ifs
  · exact hkept
  · dsimp only
    generalize (h.takeId.request _ 200 c.exchange).2 = h' at hanswered hnext ⊢
    refine ⟨.inl (gone_shutdown _ _), hkept.filed.congr hanswered ?_⟩
    exact hnext ▸ Nat.le_succ _

variable (serde : SerdeJson) (refusal : String → Json → String)

theorem Kept.initializePlugin (hkept : h.Kept) {x : Exchange}
    (hx : h.session.Gone ∨ x.Orderly (h.nextRequestId + 1)) :
    (h.initializePlugin refusal x).2.Kept := by
  have hask := hkept.askOrKill hx "initialize" (.object [("plugin_id", .string h.manifest.id),
    ("protocol_version", .string Ipc.protocolVersion)]) h.shortTimeout
  unfold PluginHandle.initializePlugin
  generalize h.askOrKill _ _ h.shortTimeout x = o at hask ⊢
  obtain ⟨e | resp, h'⟩ := o
  · exact hask
  · dsimp only
    cases initializeResult refusal resp with
    | error e => exact hask.filed.kill
    | ok u => exact hask

theorem Kept.query (hkept : h.Kept) {x : Exchange}
    (hx : h.session.Gone ∨ x.Orderly (h.nextRequestId + 1)) (text queryId : String)
    (c : Closing) : (h.query serde refusal text queryId x c).2.Kept := by
  have hask := hkept.askOrKill hx "query" (queryParams text queryId) h.manifest.timeoutMs
  suffices hinvocation : (h.queryInvocation serde refusal text queryId x).2.Kept from
    hinvocation.finishInvocation c
  unfold queryInvocation
  generalize h.askOrKill _ _ h.manifest.timeoutMs x = o at hask ⊢
  obtain ⟨e | resp, h'⟩ := o
  · exact hask
  · dsimp only
    cases resp.error with
    | some err => exact hask.filed.kill
    | none =>
        dsimp only
        cases queryItems serde refusal h'.manifest queryId resp <;> exact hask

theorem Kept.executeAction (hkept : h.Kept) {x : Exchange}
    (hx : h.session.Gone ∨ x.Orderly (h.nextRequestId + 1)) (actionId : String) (input : Json)
    (executionId : String) (contextGeneration : UInt64) (c : Closing) :
    (h.executeAction actionId input executionId contextGeneration x c).2.Kept := by
  have hask := hkept.askOrKill hx "execute_action"
    (.object [("action_id", .string actionId),
      ("context_generation", .number (.posInt contextGeneration)),
      ("execution_id", .string executionId), ("input", input)]) h.manifest.timeoutMs
  suffices hinvocation :
      (h.executeActionInvocation actionId input executionId contextGeneration x).2.Kept from
    hinvocation.finishInvocation c
  unfold executeActionInvocation
  generalize h.askOrKill _ _ h.manifest.timeoutMs x = o at hask ⊢
  obtain ⟨e | resp, h'⟩ := o
  · exact hask
  · dsimp only
    cases resp.error with
    | some err => exact hask
    | none =>
        dsimp only
        cases actionPayload executionId (resp.result.getD .null) with
        | error e => exact hask.filed.kill
        | ok payload => exact hask

/-- Nothing happens to the handle after the request of a tool. -/
theorem toolRequest_snd {α : Type} (type : String) (decode : Json → Option α) (method : String)
    (params : Json) (x : Exchange) : (h.toolRequest refusal type decode method params x).2 =
      (h.ask method params h.shortTimeout x).2 := by
  unfold toolRequest
  generalize h.ask method params h.shortTimeout x = o
  obtain ⟨e | resp, h'⟩ := o
  · rfl
  · dsimp only
    cases resp.error with
    | some err => rfl
    | none =>
        dsimp only
        cases decode (resp.result.getD .null) <;> rfl

theorem Kept.toolRequest (hkept : h.Kept) {x : Exchange}
    (hx : h.session.Gone ∨ x.Orderly (h.nextRequestId + 1) ∧
      (x.wait.late = true → answersIn anyLine x.wait.arrivals = 0)) {α : Type} (type : String)
    (decode : Json → Option α) (method : String) (params : Json) :
    (h.toolRequest refusal type decode method params x).2.Kept := by
  rw [toolRequest_snd]
  obtain ⟨hfiled, hquiet⟩ := hkept.ask (hx.imp_right And.left) method params h.shortTimeout
  exact ⟨hquiet (.inr (hx.imp_right And.right)), hfiled⟩

/-- **One call.** An orderly plugin keeps the handle in order. -/
theorem Kept.act (hkept : h.Kept) {call : HandleCall} (hcall : call.Orderly h) :
    (h.act serde refusal call).Kept := by
  have hx := hcall.imp_right And.left
  have htool : call.isTool = true → h.session.Gone ∨
      call.exchange.Orderly (h.nextRequestId + 1) ∧ (call.exchange.wait.late = true →
        answersIn anyLine call.exchange.wait.arrivals = 0) :=
    fun ht => hcall.imp_right fun hin => ⟨hin.1, hin.2 ht⟩
  cases call with
  | handshake x => exact hkept.initializePlugin refusal hx
  | query text queryId x c => exact hkept.query serde refusal hx text queryId c
  | executeAction actionId input executionId generation x c =>
      exact hkept.executeAction hx actionId input executionId generation c
  | toolList requestId x =>
      exact hkept.toolRequest refusal (htool rfl) "ToolListResult" ToolListResult.decode
        "tool.list" (.object [("request_id", .string requestId)])
  | toolOpen sessionId toolId context initialInput x =>
      exact hkept.toolRequest refusal (htool rfl) ..
  | toolEvent event x => exact hkept.toolRequest refusal (htool rfl) ..
  | toolClose sessionId x => exact hkept.toolRequest refusal (htool rfl) ..
  | toolCancel sessionId eventId x => exact hkept.toolRequest refusal (htool rfl) ..

/-- **Whose answer a request takes.** In every run of calls during which the plugin is orderly,
every response that was taken for an answer has the id of its request, and no other request had
that id. -/
theorem matched_of_along {m : PluginManifest} {calls : List HandleCall} {h : PluginHandle}
    (hrun : (handles serde refusal).run (started m) calls = some h)
    (halong : (handles serde refusal).Along (fun h call => call.Orderly h) (started m) calls) :
    h.Matched := by
  refine ((handles serde refusal).run_inv (I := Kept) ?_ (kept_started m) halong hrun).filed.matched
  intro h call h' hkept hcall hstep
  obtain rfl := Option.some.inj hstep
  exact hkept.act serde refusal hcall

/-- A resident plugin with nothing granted. -/
def residentManifest : PluginManifest := ⟨"p", some 1, [], 2000, .resident⟩

/-- The answer to a handshake that succeeds. -/
def handshakeResponse : Response :=
  ⟨1, some (.object [("protocol_version", .string "0.1")]), none⟩

/-- An event of a tool. -/
def clickEvent : UiEvent := ⟨"s", "e", "n", "click", .null⟩

/-- A tool request that runs out of time, and one that is answered. -/
theorem matched_of_along_silent :
    (((started residentManifest).act .withoutFloats (fun _ _ => "")
      (.handshake (.inTime [] handshakeResponse))).act .withoutFloats (fun _ _ => "")
        (.toolEvent clickEvent .outOfTime)).act .withoutFloats (fun _ _ => "")
          (.toolEvent clickEvent (.inTime [] ⟨3, some .null, none⟩)) |>.Matched :=
  matched_of_along .withoutFloats (fun _ _ => "")
    (show (handles _ _).run (started residentManifest)
      [.handshake (.inTime [] handshakeResponse), .toolEvent clickEvent .outOfTime,
        .toolEvent clickEvent (.inTime [] ⟨3, some .null, none⟩)] = some _ from rfl) (by decide)

/-- The answer to a tool request that ran out of time is taken for the answer to the next one. -/
theorem not_matched_late :
    ¬ ∀ (serde : SerdeJson) (refusal : String → Json → String) (m : PluginManifest)
      (calls : List HandleCall) (h : PluginHandle),
      (handles serde refusal).run (started m) calls = some h → h.Matched := by
  intro hall
  have hmatched := hall .withoutFloats (fun _ _ => "") residentManifest
    [.handshake (.inTime [] handshakeResponse), .toolEvent clickEvent .outOfTime,
      .toolEvent clickEvent
        (.inTime [.line (.ok ⟨2, some (.string "late"), none⟩)] ⟨3, some .null, none⟩)] _ rfl
  have heq : 2 = 3 := hmatched.id_eq (3, ⟨2, some (.string "late"), none⟩)
    (List.mem_cons_of_mem _ List.mem_cons_self)
  cases heq

end PluginHandle

end AuraLauncher.Plugin
