import AuraLauncher.Mcp.Http
import Mathlib.Data.String.Basic

/-!
# The catalog of tools

`launcher-mcp/src/catalog.rs` and `types.rs`: the tools of one server, fetched over a transport and
replaced as a whole.

What a server lists is described apart from the code, in the wire format of MCP: pages of tools,
each page with the cursor of the next one, and every tool with its `inputSchema`. The two
transports are connected to it by what a listing hears back; they ask for no cursor, and read the
fields `input_schema` and `next_cursor`, which the wire format does not have.

* `McpCatalog.refreshFrom` — initialize, list, replace.
* `wireTool`, `wirePage`, `PagesFrom` — a tool, a page and all pages of a server.
* `ToolsListResult.decode_wirePage` — what is read of a page.
* `refreshFrom_eq`, `refreshFrom_sorted`, `refreshFrom_error` — what a refresh does.
* `Discovered`, `OnePlainPage`, `refreshFrom_discovered_iff` — that all tools are discovered with
  their schemas, and exactly when that happens.
-/

namespace AuraLauncher.Mcp

open AuraLauncher.Workflow (Json SerdeJson)

universe u v

/-! ## The catalog -/

/-- A discovered tool, with all its fields. Source: `types.rs`, `McpTool`. -/
structure CatalogTool extends McpTool where
  serverId : String
  title : Option String
  description : Option String
  inputSchema : Json
  annotations : Json

/-- Source: `compat.rs`, `CacheScope`. -/
inductive CacheScope
  | server
  | shareable
  deriving DecidableEq, Repr

/-- Source: `compat.rs`, `CacheMetadata`. -/
structure CacheMetadata where
  ttlMs : Option UInt64
  scope : CacheScope

/-- Source: `catalog.rs`, `McpCatalog`. -/
structure McpCatalog where
  serverId : String
  serverName : String
  tools : List CatalogTool
  cache : CacheMetadata

/-- A tool that was listed, as a tool of the catalog. Source: `catalog.rs`, `refresh_from` (the
closure). -/
def ToolDto.toCatalogTool (serverId : String) (t : ToolDto) : CatalogTool where
  name := t.name
  serverId := serverId
  title := t.title
  description := t.description
  inputSchema := t.inputSchema
  annotations := t.annotations

namespace McpCatalog

/-- Source: `catalog.rs`, `McpCatalog::new`. -/
def new (serverId serverName : String) : McpCatalog := ⟨serverId, serverName, [], none, .server⟩

/-- Tools in the order of their names. Source: `catalog.rs`, `refresh_from` (`sort_by`). -/
def sortTools (tools : List CatalogTool) : List CatalogTool :=
  tools.mergeSort fun a b => decide (a.name ≤ b.name)

/-- The catalog of a server that has listed its tools. -/
def replace (c : McpCatalog) (listed : ToolsListResult) : McpCatalog :=
  { c with
    tools := sortTools (listed.tools.map (ToolDto.toCatalogTool c.serverId))
    cache := ⟨listed.ttlMs, .server⟩ }

variable {τ : Type u} {σ : Type v}

/-- Source: `catalog.rs`, `McpCatalog::refresh_from`. -/
def refreshFrom (T : McpTransports τ σ) (s : σ) (t : τ) (c : McpCatalog) :
    Except McpError Unit × τ × McpCatalog :=
  match T.initializeTransport s t with
  | (.error e, t) => (.error e, t, c)
  | (.ok _, t) =>
      match T.listTools s t with
      | (.error e, t) => (.error e, t, c)
      | (.ok listed, t) => (.ok (), t, c.replace listed)

/-- A refresh that fails leaves the catalog as it is. -/
theorem refreshFrom_error {T : McpTransports τ σ} {s : σ} {t : τ} {c : McpCatalog} {e : McpError}
    (h : (c.refreshFrom T s t).1 = .error e) : (c.refreshFrom T s t).2.2 = c := by
  unfold refreshFrom at *
  split
  · rfl
  · split
    · rfl
    · simp_all

/-- **What a refresh does**: the catalog is replaced by what the transport lists after it was
initialized. -/
theorem refreshFrom_eq {T : McpTransports τ σ} {s : σ} {t : τ} {c : McpCatalog}
    (h : (c.refreshFrom T s t).1 = .ok ()) :
    ∃ listed, (T.listTools s (T.initializeTransport s t).2).1 = .ok listed ∧
      (c.refreshFrom T s t).2.2 = c.replace listed := by
  unfold refreshFrom at *
  cases hinit : T.initializeTransport s t with
  | mk init t₁ =>
      cases init with
      | error e => simp [hinit] at h
      | ok _ =>
          cases hlist : T.listTools s t₁ with
          | mk result t₂ =>
              cases result with
              | error e => simp [hinit, hlist] at h
              | ok listed => exact ⟨listed, by simp, by simp [hlist]⟩

theorem sortTools_perm (tools : List CatalogTool) : (sortTools tools).Perm tools :=
  List.mergeSort_perm _ _

/-- The tools of a catalog that was refreshed are in the order of their names. -/
theorem refreshFrom_sorted {T : McpTransports τ σ} {s : σ} {t : τ} {c : McpCatalog}
    (h : (c.refreshFrom T s t).1 = .ok ()) :
    (c.refreshFrom T s t).2.2.tools.Pairwise fun a b => a.name ≤ b.name := by
  obtain ⟨listed, -, hreplace⟩ := refreshFrom_eq h
  rw [hreplace]
  have hsorted : ∀ tools : List CatalogTool,
      (tools.mergeSort fun a b => decide (a.name ≤ b.name)).Pairwise
        fun a b => decide (a.name ≤ b.name) := by
    intro tools
    apply List.pairwise_mergeSort
    · intro a b c hab hbc
      simp only [decide_eq_true_eq] at *
      exact le_trans hab hbc
    · intro a b
      simpa using le_total a.name b.name
  simpa [replace, sortTools] using hsorted (listed.tools.map (ToolDto.toCatalogTool c.serverId))

end McpCatalog

/-! ## The wire format -/

/-- A tool as a server lists it: an object with the fields of MCP, and with any others. -/
def wireTool : Json → Option ToolDto
  | .object fields => do
      guard (fields.lookup "input_schema").isNone
      let name ← (fields.lookup "name").bind Json.asStr
      let title ← optionField Json.asStr fields "title"
      let description ← optionField Json.asStr fields "description"
      return ⟨name, title, description, (fields.lookup "inputSchema").getD .null,
        (fields.lookup "annotations").getD .null⟩
  | _ => none

/-- A page of tools, and the cursor of the page after it. -/
structure ToolPage where
  tools : List ToolDto
  nextCursor : Option String

/-- A page as a server sends it. -/
def wirePage : Json → Option ToolPage
  | .object fields => do
      guard (fields.lookup "next_cursor").isNone
      let tools ← (fields.lookup "tools").bind (decodeArray wireTool)
      let nextCursor ← optionField Json.asStr fields "nextCursor"
      return ⟨tools, nextCursor⟩
  | _ => none

/-- The pages of a server, from the one with a cursor on. -/
inductive PagesFrom (server : Option String → Json) : Option String → List ToolPage → Prop
  | last {cursor : Option String} {page : ToolPage} (hpage : wirePage (server cursor) = some page)
      (hend : page.nextCursor = none) : PagesFrom server cursor [page]
  | more {cursor : Option String} {page : ToolPage} {next : String} {pages : List ToolPage}
      (hpage : wirePage (server cursor) = some page) (hnext : page.nextCursor = some next)
      (hrest : PagesFrom server (some next) pages) : PagesFrom server cursor (page :: pages)

theorem PagesFrom.head {server : Option String → Json} {cursor : Option String}
    {pages : List ToolPage} (h : PagesFrom server cursor pages) :
    ∃ page rest, pages = page :: rest ∧ wirePage (server cursor) = some page := by
  cases h with
  | last hpage _ => exact ⟨_, [], rfl, hpage⟩
  | more hpage _ _ => exact ⟨_, _, rfl, hpage⟩

/-- The tool without its schema. -/
def ToolDto.withoutSchema (t : ToolDto) : ToolDto := { t with inputSchema := .null }

theorem ToolDto.withoutSchema_of_null {t : ToolDto} (h : t.inputSchema = .null) :
    t.withoutSchema = t := by
  rw [withoutSchema, ← h]

/-- A field that the wire format does not have. -/
theorem lookup_eq_none_of_guard {fields : List (String × Json)} {name : String} {u : Unit}
    (h : (guard ((fields.lookup name).isNone = true) : Option Unit) = some u) :
    fields.lookup name = none := by
  unfold guard at h
  split_ifs at h with hnone
  exact Option.isNone_iff_eq_none.mp hnone

/-- The schema of a tool is not read. -/
theorem ToolDto.decode_wireTool {v : Json} {tool : ToolDto} (h : wireTool v = some tool) :
    ToolDto.decode v = some tool.withoutSchema := by
  cases v with
  | object fields =>
      simp only [wireTool, Option.bind_eq_bind, Option.bind_eq_some_iff] at h
      obtain ⟨u, hguard, name, hname, title, htitle, description, hdescription, heq⟩ := h
      have hschema := lookup_eq_none_of_guard hguard
      obtain rfl := Option.some.inj heq
      have hname' : (fields.lookup "name").bind Json.asStr = some name :=
        Option.bind_eq_some_iff.mpr hname
      simp only [ToolDto.decode, structFields, Option.bind_eq_bind, Option.bind_some, hname',
        htitle, hdescription, hschema, Option.getD_none]
      rfl
  | _ => cases h

/-- Every tool of a page is read, without its schema. -/
theorem decodeArray_wireTool {v : Json} {tools : List ToolDto}
    (h : decodeArray wireTool v = some tools) :
    decodeArray ToolDto.decode v = some (tools.map ToolDto.withoutSchema) := by
  cases v with
  | array items =>
      unfold decodeArray at *
      induction items generalizing tools with
      | nil =>
          obtain rfl : [] = tools := by simpa using h
          rfl
      | cons item items ih =>
          simp only [List.mapM_cons, Option.bind_eq_bind, Option.bind_eq_some_iff] at h
          obtain ⟨tool, htool, rest, hrest, heq⟩ := h
          obtain rfl := Option.some.inj heq
          have hitems := ih hrest
          simp only [List.mapM_cons, Option.bind_eq_bind, ToolDto.decode_wireTool htool,
            Option.bind_some, hitems]
          rfl
  | _ => cases h

/-- What is read of a page: its tools without their schemas, and no cursor. -/
theorem ToolsListResult.decode_wirePage {v : Json} {page : ToolPage} {listed : ToolsListResult}
    (h : wirePage v = some page) (hdecode : ToolsListResult.decode v = some listed) :
    listed.tools = page.tools.map ToolDto.withoutSchema ∧ listed.nextCursor = none := by
  cases v with
  | object fields =>
      simp only [wirePage, Option.bind_eq_bind, Option.bind_eq_some_iff] at h
      obtain ⟨u, hguard, tools, ⟨items, hitems, htools⟩, nextCursor, -, heq⟩ := h
      have hcursor := lookup_eq_none_of_guard hguard
      obtain rfl := Option.some.inj heq
      have hread := decodeArray_wireTool htools
      simp only [ToolsListResult.decode, structFields, defaultField, optionField, hitems, hcursor,
        hread, Option.bind_eq_bind, Option.bind_some, Option.bind_eq_some_iff] at hdecode
      obtain ⟨ttlMs, -, heq'⟩ := hdecode
      obtain rfl := Option.some.inj heq'
      exact ⟨rfl, rfl⟩
  | _ => cases h

/-! ## What is discovered -/

/-- The catalog has exactly the tools of the pages. -/
def McpCatalog.Discovered (c : McpCatalog) (pages : List ToolPage) : Prop :=
  c.tools.Perm ((pages.flatMap ToolPage.tools).map (ToolDto.toCatalogTool c.serverId))

/-- All tools are on the first page, and none of them has a schema. -/
def OnePlainPage (pages : List ToolPage) : Prop :=
  (∀ page ∈ pages.tail, page.tools = []) ∧
    ∀ page ∈ pages.head?, ∀ tool ∈ page.tools, tool.inputSchema = .null

/-- A listing that succeeds has read what the server says to a request without a cursor. -/
def McpTransports.ListsFirst {τ : Type u} {σ : Type v} (T : McpTransports τ σ)
    (server : Option String → Json) (s : σ) (t : τ) : Prop :=
  ∀ listed, (T.listTools s t).1 = .ok listed → ToolsListResult.decode (server none) = some listed

/-- The tools of the first page without their schemas are all tools exactly when there are no
others and none has a schema. -/
theorem perm_pages_iff (serverId : String) {page : ToolPage} {rest : List ToolPage} :
    ((page.tools.map ToolDto.withoutSchema).map (ToolDto.toCatalogTool serverId)).Perm
        (((page :: rest).flatMap ToolPage.tools).map (ToolDto.toCatalogTool serverId)) ↔
      OnePlainPage (page :: rest) := by
  constructor
  · intro h
    refine ⟨?_, ?_⟩
    · have hlength := h.length_eq
      simp only [List.length_map, List.flatMap_cons, List.length_append] at hlength
      have hnil : rest.flatMap ToolPage.tools = [] := List.length_eq_zero_iff.mp (by omega)
      exact fun p hp => List.flatMap_eq_nil_iff.mp hnil p hp
    · intro p hp tool htool
      obtain rfl : page = p := by simpa using hp
      have hmem : tool.toCatalogTool serverId ∈
          (page.tools.map ToolDto.withoutSchema).map (ToolDto.toCatalogTool serverId) := by
        apply h.mem_iff.mpr
        exact List.mem_map_of_mem (List.mem_flatMap.mpr ⟨page, by simp, htool⟩)
      obtain ⟨plain, hplain, heq⟩ := List.mem_map.mp hmem
      obtain ⟨origin, -, rfl⟩ := List.mem_map.mp hplain
      exact (congrArg CatalogTool.inputSchema heq).symm
  · rintro ⟨hrest, hplain⟩
    have hnil : rest.flatMap ToolPage.tools = [] := List.flatMap_eq_nil_iff.mpr hrest
    have hsame : page.tools.map ToolDto.withoutSchema = page.tools := by
      calc page.tools.map ToolDto.withoutSchema
          = page.tools.map id := List.map_congr_left fun tool htool =>
            ToolDto.withoutSchema_of_null (hplain page rfl tool htool)
        _ = page.tools := List.map_id _
    rw [List.flatMap_cons, hnil, List.append_nil, hsame]

/-- What a refresh discovers, over any transport that lists the first page. -/
theorem McpCatalog.discovered_iff_of_listsFirst {τ : Type u} {σ : Type v} {T : McpTransports τ σ}
    {server : Option String → Json} {s : σ} {t : τ} {c : McpCatalog} {pages : List ToolPage}
    (hlists : T.ListsFirst server s (T.initializeTransport s t).2)
    (hpages : PagesFrom server none pages) (hok : (c.refreshFrom T s t).1 = .ok ()) :
    (c.refreshFrom T s t).2.2.Discovered pages ↔ OnePlainPage pages := by
  obtain ⟨listed, hlisted, hreplace⟩ := McpCatalog.refreshFrom_eq hok
  obtain ⟨page, rest, rfl, hpage⟩ := hpages.head
  have hread := (ToolsListResult.decode_wirePage hpage (hlists listed hlisted)).1
  rw [← perm_pages_iff c.serverId, hreplace, ← hread]
  have hperm := McpCatalog.sortTools_perm (listed.tools.map (ToolDto.toCatalogTool c.serverId))
  exact ⟨hperm.symm.trans, hperm.trans⟩

/-! ## The two transports -/

/-- The cursor that a listing asks for. -/
def cursorOf (params : Json) : Option String := (params.get "cursor").bind Json.asStr

/-- What the server answers to a listing over a pipe is the page with the cursor of the request. -/
def StdioTransport.AnswersListing (server : Option String → Json) (x : Exchange)
    (t : StdioTransport) : Prop :=
  ∀ resp, (t.takeId.request ⟨t.nextId + 1, "tools/list", t.selfDescribed []⟩ x).1 = .ok resp →
    resp.error = none → resp.result = some (server (cursorOf (t.selfDescribed [])))

/-- No cursor is asked for. -/
theorem StdioTransport.cursorOf_selfDescribed (t : StdioTransport) :
    cursorOf (t.selfDescribed []) = none := by
  unfold selfDescribed
  split_ifs <;> rfl

/-- What is decoded was decodable. -/
theorem StdioTransport.decoded_eq_ok {γ : Type} {decodeText : Json → String}
    {decode : Json → Option γ} {v : Json} {r : γ} (h : decoded decodeText decode v = .ok r) :
    decode v = some r := by
  unfold decoded at h
  cases hdecode : decode v with
  | none => simp [hdecode] at h
  | some r' => simpa [hdecode] using h

theorem StdioTransport.listsFirst {server : Option String → Json}
    {servers : String → Option ServerEndpoint} {timeout : String} {decodeText : Json → String}
    {s : StdioScript} {t : StdioTransport} (h : t.AnswersListing server s.call) :
    (stdioTransports servers timeout decodeText).ListsFirst server s t := by
  intro listed hlisted
  have hlist : (t.listTools decodeText s.call).1 = .ok listed := hlisted
  unfold AnswersListing at h
  rw [t.cursorOf_selfDescribed] at h
  unfold listTools at hlist
  cases hrequest : t.takeId.request ⟨t.nextId + 1, "tools/list", t.selfDescribed []⟩ s.call with
  | mk answer t' =>
      rw [hrequest] at hlist h
      cases answer with
      | error e => cases hlist
      | ok resp =>
          cases herror : resp.error with
          | some err => simp [envelope, herror] at hlist
          | none =>
              have hresult := h resp rfl herror
              simp only [envelope, herror, hresult, Option.getD_some] at hlist
              split at hlist
              · cases hlist
              · rename_i v hv
                split_ifs at hv
                obtain rfl := Except.ok.inj hv
                exact decoded_eq_ok hlist

section Http

variable {α : Type u} {σ : Type v} (provider : AuthProvider α) (serve : HttpServer σ)
  (parse : BodyParser) (serde : SerdeJson) (decodeText : Json → String)

/-- What the server answers to a listing over HTTP is the page with the cursor of the request. -/
def HttpTransport.AnswersListing (server : Option String → Json) (t : HttpTransport α σ) : Prop :=
  ∀ header body resp,
    buildRequest serde decodeText { t with nextId := t.nextId + 1 } (t.nextId + 1) "tools/list" none
      (.object []) = .ok (header, body) →
    (post provider serve parse { t with nextId := t.nextId + 1 } header (body.text serde)).1 =
      .ok resp →
    resp.error = none → resp.result = some (server (cursorOf ((body.get "params").getD .null)))

/-- No cursor is asked for. -/
theorem HttpTransport.cursorOf_buildRequest {t : HttpTransport α σ} {id : ℕ} {header : HeaderLine}
    {body : Json} (h : t.buildRequest serde decodeText id "tools/list" none (.object []) =
      .ok (header, body)) : cursorOf ((body.get "params").getD .null) = none := by
  unfold buildRequest at h
  dsimp only at h
  split_ifs at h
  split at h
  · cases h
  · obtain ⟨-, rfl⟩ := Prod.mk.inj (Except.ok.inj h)
    rfl

/-- A result is the one of a response without an error. -/
theorem HttpTransport.rpcResult_eq_ok {id : ℕ} {rpcMethod : String} {toolName : Option String}
    {requiredAny : List String} {errorFor : JsonRpcError → Option McpError}
    {resp : JsonRpcResponse} {v : Json}
    (h : rpcResult id rpcMethod toolName requiredAny errorFor resp = .ok v) :
    resp.error = none ∧ v = resp.result.getD .null := by
  unfold rpcResult at h
  split at h
  · cases h
  · rename_i hnone
    dsimp only at h
    split_ifs at h
    exact ⟨hnone, (Except.ok.inj h).symm⟩

theorem HttpTransport.listsFirst {server : Option String → Json}
    {endpoints : String → Option (String × McpProtocolProfile × UrlPolicy)} {s : σ}
    {t : HttpTransport α σ}
    (h : t.AnswersListing provider serve parse serde decodeText server) :
    (httpTransports provider serve parse serde decodeText endpoints).ListsFirst server s t := by
  intro listed hlisted
  have hlist : (t.listTools provider serve parse serde decodeText).1 = .ok listed := hlisted
  unfold AnswersListing at h
  unfold listTools rpc at hlist
  dsimp only at hlist
  cases hbuild : buildRequest serde decodeText { t with nextId := t.nextId + 1 } (t.nextId + 1)
      "tools/list" none (.object []) with
  | error e => simp [hbuild] at hlist
  | ok request =>
      obtain ⟨header, body⟩ := request
      cases hpost : post provider serve parse { t with nextId := t.nextId + 1 } header
          (body.text serde) with
      | mk answer t' =>
          simp only [hbuild, hpost] at hlist
          cases answer with
          | error e => cases hlist
          | ok resp =>
              cases hresult : rpcResult t'.nextId "tools/list" none ["tools"] (fun _ => none)
                  resp with
              | error e => simp [hresult] at hlist
              | ok v =>
                  simp only [hresult] at hlist
                  obtain ⟨hnone, hv⟩ := rpcResult_eq_ok hresult
                  have hsent := h header body resp hbuild (by rw [hpost]) hnone
                  rw [cursorOf_buildRequest serde decodeText hbuild] at hsent
                  rw [hsent, Option.getD_some] at hv
                  exact StdioTransport.decoded_eq_ok (hv ▸ hlist)

end Http

/-! ## Completeness -/

/-- **When the discovery is complete**: over either transport, a refresh that succeeds finds exactly
the tools of all pages with their schemas when all tools are on the first page and none has a
schema, and only then. -/
theorem McpCatalog.refreshFrom_discovered_iff {α : Type u} {σ : Type v}
    {server : Option String → Json} {pages : List ToolPage} (hpages : PagesFrom server none pages)
    (decodeText : Json → String) (c : McpCatalog) :
    (∀ (servers : String → Option ServerEndpoint) (timeout : String) (s : StdioScript)
      (t : StdioTransport),
      (t.initializeTransport decodeText s.handshake s.note).2.AnswersListing server s.call →
      (c.refreshFrom (stdioTransports servers timeout decodeText) s t).1 = .ok () →
      ((c.refreshFrom (stdioTransports servers timeout decodeText) s t).2.2.Discovered pages ↔
        OnePlainPage pages)) ∧
    ∀ (provider : AuthProvider α) (serve : HttpServer σ) (parse : BodyParser) (serde : SerdeJson)
      (endpoints : String → Option (String × McpProtocolProfile × UrlPolicy)) (s : σ)
      (t : HttpTransport α σ),
      t.AnswersListing provider serve parse serde decodeText server →
      (c.refreshFrom (httpTransports provider serve parse serde decodeText endpoints) s t).1 =
        .ok () →
      ((c.refreshFrom (httpTransports provider serve parse serde decodeText endpoints)
        s t).2.2.Discovered pages ↔ OnePlainPage pages) := by
  constructor
  · intro servers timeout s t hserver hok
    exact discovered_iff_of_listsFirst (StdioTransport.listsFirst hserver) hpages hok
  · intro provider serve parse serde endpoints s t hserver hok
    exact discovered_iff_of_listsFirst
      (HttpTransport.listsFirst provider serve parse serde decodeText hserver) hpages hok

/-! ## A server with two pages -/

/-- A tool with a schema, as it is listed. -/
def schemaTool (name : String) : Json :=
  .object [("inputSchema", .object [("type", .string "object")]), ("name", .string name)]

/-- A server with a tool on each of two pages. -/
def pagedServer : Option String → Json
  | none => .object [("nextCursor", .string "2"), ("tools", .array [schemaTool "add"])]
  | some _ => .object [("tools", .array [schemaTool "sub"])]

/-- A server without tools. -/
def emptyServer : Option String → Json := fun _ => .object [("tools", .array [])]

/-- A listing that is answered with the first page. -/
def listScript (server : Option String → Json) : StdioScript where
  spawned := .ok ()
  handshake := ⟨[], []⟩
  note := []
  call := ⟨[], [⟨some "5s", [.line (.ok ⟨some 1, some (server none), none, none⟩)], false,
    .unknown⟩]⟩

/-- A fresh transport of the profile without a handshake. -/
def listTransport : StdioTransport := ⟨.spawned maxFrameBytes, 0, "5s", .v2026_07_28, []⟩

theorem listTransport_answersListing (server : Option String → Json) :
    listTransport.AnswersListing server (listScript server).call := by
  intro resp hresp _
  have hanswer : (listTransport.takeId.request ⟨listTransport.nextId + 1, "tools/list",
      listTransport.selfDescribed []⟩ (listScript server).call).1 =
        .ok ⟨some 1, some (server none), none, none⟩ := rfl
  rw [hanswer] at hresp
  obtain rfl := Except.ok.inj hresp
  rfl

/-- The catalog has one of the two tools, and that one without its schema. -/
theorem McpCatalog.refreshFrom_not_discovered : ∃ pages,
    PagesFrom pagedServer none pages ∧
    listTransport.AnswersListing pagedServer (listScript pagedServer).call ∧
    ((new "calc" "Calc").refreshFrom (stdioTransports (fun _ => none) "5s" fun _ => "")
      (listScript pagedServer) listTransport).1 = .ok () ∧
    ((new "calc" "Calc").refreshFrom (stdioTransports (fun _ => none) "5s" fun _ => "")
      (listScript pagedServer) listTransport).2.2.tools =
        [⟨⟨"add"⟩, "calc", none, none, .null, .null⟩] ∧
    ¬ ((new "calc" "Calc").refreshFrom (stdioTransports (fun _ => none) "5s" fun _ => "")
      (listScript pagedServer) listTransport).2.2.Discovered pages := by
  have htools : ((new "calc" "Calc").refreshFrom (stdioTransports (fun _ => none) "5s" fun _ => "")
      (listScript pagedServer) listTransport).2.2.tools =
        [⟨⟨"add"⟩, "calc", none, none, .null, .null⟩] :=
    List.mergeSort_singleton _
  refine ⟨_, .more rfl rfl (.last rfl rfl), listTransport_answersListing pagedServer, rfl, htools,
    ?_⟩
  intro h
  have hlength := h.length_eq
  rw [htools] at hlength
  cases hlength

/-- Of a server without tools everything is discovered. -/
theorem McpCatalog.refreshFrom_discovered_iff_empty :
    ((new "calc" "Calc").refreshFrom (stdioTransports (fun _ => none) "5s" fun _ => "")
      (listScript emptyServer) listTransport).2.2.Discovered [⟨[], none⟩] ↔
    OnePlainPage [⟨[], none⟩] :=
  (refreshFrom_discovered_iff (α := Unit) (σ := Unit) (.last rfl rfl) (fun _ => "")
    (new "calc" "Calc")).1 (fun _ => none) "5s" (listScript emptyServer) listTransport
    (listTransport_answersListing emptyServer) rfl

end AuraLauncher.Mcp
