import LogCache.CapiResources

namespace LogCache.CapiPages

open Envelopes NetUrl CapiResources

section client

structure Resource where
  guid : String
  name : String

/-- What is read of a page: `pagination.next.href`, empty if there is none, and
`resources`. -/
structure Page where
  href : String
  resources : List Resource

structure Response where
  status : Nat
  body : Bytes

/-- A request as it is given to the HTTP client. `host` is what
`http.NewRequest` sets, and goes into the header. -/
structure Request where
  url : URL
  host : Bytes
  authorization : String

/-- What the client meets outside: JSON, the texts of errors, the encoding of
paths and of a query in which values are set. -/
structure Environment where
  decode : Bytes → Except String Page
  statusText : Nat → String
  parseErrorText : ParseError → String
  escapedPath : URL → String
  setQuery : Bytes → List (String × String) → Bytes

abbrev Reply := Except String Response

variable (env : Environment)

/-- `doResourceRequest`, for the reply to its request: the resources, the URL of
the next page, and the error. -/
def doResourceRequest (url : URL) (reply : Reply) : List Resource × Option URL × Option String :=
  match reply with
  | .error err =>
      ([], none, some ("failed CAPI request (" ++ env.escapedPath url ++ ") with error: " ++ err))
  | .ok resp =>
      if resp.status ≠ 200 then
        ([], none, some ("failed CAPI request (" ++ env.escapedPath url ++ ") with status: " ++
          toString resp.status ++
          " (" ++ env.statusText resp.status ++ ")"))
      else
        match env.decode resp.body with
        | .error err =>
            ([], none, some ("failed to decode resource list request (" ++ env.escapedPath url ++
              "): " ++ err))
        | .ok apps =>
            if apps.href ≠ "" then
              match parse (utf8 apps.href) with
              | .error err =>
                  (apps.resources, none,
                    some ("failed to parse URL " ++ apps.href ++ ": " ++ env.parseErrorText err))
              | .ok nextPageURL =>
                  (apps.resources, some { nextPageURL with scheme := url.scheme, host := url.host },
                    none)
            else (apps.resources, none, none)

/-- What a call made of the replies to its requests: the result, the requests,
and the replies that it did not need. -/
structure Done (α : Type) where
  result : Except String α
  sent : List Request
  rest : List Reply

/-- The loop of `doPaginatedResourceRequest`; `none` if it is still waiting for
a reply. -/
def pageLoop (authToken : String) :
    Request → List Resource → List Reply → Option (Done (List Resource))
  | _, _, [] => none
  | req, resources, reply :: replies =>
      let req := { req with authorization := authToken }
      match doResourceRequest env req.url reply with
      | (_, _, some err) => some ⟨.error err, [req], replies⟩
      | (page, none, none) => some ⟨.ok (resources ++ page), [req], replies⟩
      | (page, some nextPageURL, none) =>
          (pageLoop authToken { req with url := nextPageURL }
            (resources ++ page) replies).map fun done =>
            { done with sent := req :: done.sent }

def doPaginatedResourceRequest (authToken : String) (req : Request) (replies : List Reply) :
    Option (Done (List Resource)) :=
  pageLoop env authToken req [] replies

def collectionRequest (addr : Bytes) (path : String) (values : List (String × String)) :
    Except ParseError Request :=
  (fun url => ⟨{ url with rawQuery := env.setQuery url.rawQuery values }, url.host, ""⟩) <$>
    newRequest (addr ++ utf8 path)

def sourceIDsForResourceType (addr : Bytes) (resourceType authToken : String)
    (replies : List Reply) :
    Option (Done (List String)) :=
  match collectionRequest env addr ("/v3/" ++ resourceType) [("per_page", "5000")] with
  | .error err => some ⟨.error (env.parseErrorText err), [], replies⟩
  | .ok req =>
      (doPaginatedResourceRequest env authToken req replies).map fun done =>
        ⟨(fun resources => resources.map Resource.guid) <$> done.result, done.sent, done.rest⟩

def availableSourceIDs (addr : Bytes) (authToken : String) (replies : List Reply) :
    Option (List String) :=
  (sourceIDsForResourceType env addr "apps" authToken replies).bind fun apps =>
    match apps.result with
    | .error _ => some []
    | .ok appIDs =>
        (sourceIDsForResourceType env addr "service_instances" authToken apps.rest).map
          fun services =>
          match services.result with
          | .error _ => []
          | .ok serviceIDs => appIDs ++ serviceIDs

def addGuid (guidSets : GoMap (List String)) (resource : Resource) : GoMap (List String) :=
  guidSets.insert resource.name ((guidSets.lookup resource.name).getD [] ++ [resource.guid])

def getRelatedSourceIds (addr : Bytes) (appNames : List String) (authToken : String)
    (replies : List Reply) :
    Option (GoMap (List String)) :=
  if appNames = [] then some ∅
  else
    match collectionRequest env addr "/v3/apps" [("names", ",".intercalate appNames),
      ("per_page", "5000")] with
    | .error _ => some ∅
    | .ok req =>
        (doPaginatedResourceRequest env authToken req replies).map fun done =>
          match done.result with
          | .error _ => ∅
          | .ok resources => resources.foldl addGuid ∅

end client

section replies

variable (env : Environment)

def Fails (reply : Reply) : Prop :=
  (∃ err, reply = .error err) ∨ ∃ resp, reply = .ok resp ∧
    (resp.status ≠ 200 ∨ (∃ err, env.decode resp.body = .error err) ∨
      ∃ page err, env.decode resp.body = .ok page ∧ page.href ≠ "" ∧
        parse (utf8 page.href) = .error err)

def Continues (reply : Reply) : Prop :=
  ∃ resp page next, reply = .ok resp ∧ resp.status = 200 ∧ env.decode resp.body = .ok page ∧
    page.href ≠ "" ∧
    parse (utf8 page.href) = .ok next

def resourcesOf : Reply → List Resource
  | .error _ => []
  | .ok resp => ((env.decode resp.body).toOption.map Page.resources).getD []

structure Chain where
  pages : List Reply
  final : Reply
  continues : ∀ reply ∈ pages, Continues env reply
  ends : ¬ Continues env final

def Chain.replies (chain : Chain env) : List Reply := chain.pages ++ [chain.final]

variable {env} {reply : Reply}

theorem doResourceRequest_of_fails (h : Fails env reply) (url : URL) :
    ∃ resources err, doResourceRequest env url reply = (resources, none, some err) := by
  rcases h with ⟨err, rfl⟩ | ⟨resp, rfl, hresp⟩
  · exact ⟨_, _, rfl⟩
  rw [doResourceRequest]
  by_cases hstatus : resp.status ≠ 200
  · exact ⟨_, _, if_pos hstatus⟩
  rw [if_neg hstatus]
  rcases hresp with hne | ⟨err, herr⟩ | ⟨page, err, hpage, hhref, hparse⟩
  · exact absurd hne hstatus
  · rw [herr]
    exact ⟨_, _, rfl⟩
  · simp only [hpage, if_pos hhref, hparse]
    exact ⟨_, _, rfl⟩

theorem doResourceRequest_of_continues (h : Continues env reply) (url : URL) :
    ∃ next : URL, doResourceRequest env url reply =
      (resourcesOf env reply, some { next with scheme := url.scheme, host := url.host }, none) := by
  obtain ⟨resp, page, next, rfl, hstatus, hpage, hhref, hparse⟩ := h
  refine ⟨next, ?_⟩
  rw [doResourceRequest, if_neg (not_not.mpr hstatus)]
  simp only [hpage, if_pos hhref, hparse, resourcesOf, Except.toOption, Option.map_some,
    Option.getD_some]

theorem doResourceRequest_of_last (hfails : ¬ Fails env reply) (hends : ¬ Continues env reply)
    (url : URL) :
    doResourceRequest env url reply = (resourcesOf env reply, none, none) := by
  cases reply with
  | error err => exact absurd (Or.inl ⟨err, rfl⟩) hfails
  | ok resp =>
      have hstatus : resp.status = 200 := by
        by_contra hne
        exact hfails (Or.inr ⟨resp, rfl, Or.inl hne⟩)
      rw [doResourceRequest, if_neg (not_not.mpr hstatus)]
      cases hpage : env.decode resp.body with
      | error err => exact absurd (Or.inr ⟨resp, rfl, Or.inr (Or.inl ⟨err, hpage⟩)⟩) hfails
      | ok page =>
          have hhref : page.href = "" := by
            by_contra hne
            cases hparse : parse (utf8 page.href) with
            | error err =>
                exact hfails (Or.inr ⟨resp, rfl, Or.inr (Or.inr ⟨page, err, hpage, hne, hparse⟩)⟩)
            | ok next => exact hends ⟨resp, page, next, rfl, hstatus, hpage, hne, hparse⟩
          simp only [hhref, ne_eq, not_true_eq_false, if_false, resourcesOf, hpage, Except.toOption,
            Option.map_some, Option.getD_some]

theorem not_fails_of_continues (h : Continues env reply) : ¬ Fails env reply := by
  intro hfails
  obtain ⟨resp, page, next, rfl, hstatus, hpage, hhref, hparse⟩ := h
  rcases hfails with ⟨err, herr⟩ | ⟨resp', heq,
    hne | ⟨err, herr⟩ | ⟨page', err, hpage', _, hparse'⟩⟩
  · cases herr
  · cases heq
    exact hne hstatus
  · cases heq
    cases hpage.symm.trans herr
  · cases heq
    cases hpage.symm.trans hpage'
    cases hparse.symm.trans hparse'

end replies

section chains

variable {env : Environment} {authToken : String}

def Pinned (authToken : String) (first req : Request) : Prop :=
  req.url.scheme = first.url.scheme ∧ req.url.host = first.url.host ∧ req.host = first.host ∧
    req.authorization = authToken

structure Collected (env : Environment) (authToken : String) (first : Request)
    (found : List Resource) (replies : List Reply) (rest : List Reply)
    (done : Done (List Resource)) : Prop where
  rest_eq : done.rest = rest
  length_sent : done.sent.length = replies.length
  pinned : ∀ req ∈ done.sent, Pinned authToken first req
  failed : (∃ reply ∈ replies, Fails env reply) → ∃ err, done.result = .error err
  collected : (∀ reply ∈ replies, ¬ Fails env reply) →
    done.result = .ok (found ++ replies.flatMap (resourcesOf env))

variable {first req : Request} {found : List Resource} {reply : Reply} {rest : List Reply}

theorem collected_final (hreq : Pinned authToken first { req with authorization := authToken })
    (hends : ¬ Continues env reply) :
    ∃ done, pageLoop env authToken req found (reply :: rest) = some done ∧
      Collected env authToken first found [reply] rest done := by
  rw [pageLoop]
  have hpinned : ∀ r ∈ [{ req with authorization := authToken }], Pinned authToken first r := by
    intro r hr
    rw [List.mem_singleton.mp hr]
    exact hreq
  by_cases hfails : Fails env reply
  · obtain ⟨resources, err, hrequest⟩ := doResourceRequest_of_fails hfails req.url
    simp only [hrequest]
    exact ⟨_, rfl, rfl, rfl, hpinned, fun _ => ⟨err, rfl⟩,
      fun h => absurd hfails (h reply List.mem_cons_self)⟩
  · simp only [doResourceRequest_of_last hfails hends]
    refine ⟨_, rfl, rfl, rfl, hpinned, ?_, fun _ => by simp⟩
    rintro ⟨reply', hmem, hfails'⟩
    rw [List.mem_singleton.mp hmem] at hfails'
    exact absurd hfails' hfails

/-- The invariant of the loop: it is at a request that goes where the first one
goes, with the resources of the pages before it. -/
theorem pageLoop_chain (pages : List Reply) (hpages : ∀ reply ∈ pages, Continues env reply)
    (hends : ¬ Continues env reply)
    (hreq : Pinned authToken first { req with authorization := authToken }) :
    ∃ done, pageLoop env authToken req found (pages ++ reply :: rest) = some done ∧
      Collected env authToken first found (pages ++ [reply]) rest done := by
  induction pages generalizing req found with
  | nil => exact collected_final hreq hends
  | cons page pages ih =>
      obtain ⟨hpage, hpages⟩ := List.forall_mem_cons.mp hpages
      obtain ⟨next, hrequest⟩ := doResourceRequest_of_continues hpage req.url
      obtain ⟨done, hloop, hdone⟩ := @ih
        ⟨{ next with scheme := req.url.scheme, host := req.url.host }, req.host, authToken⟩
        (found ++ resourcesOf env page) hpages hreq
      rw [List.cons_append, pageLoop]
      simp only [hrequest, hloop, Option.map_some]
      refine ⟨_, rfl, hdone.rest_eq, ?_, ?_, ?_, ?_⟩
      · simp [hdone.length_sent]
      · intro r hr
        rcases List.mem_cons.mp hr with rfl | hr
        · exact hreq
        · exact hdone.pinned r hr
      · rintro ⟨reply', hmem, hfails⟩
        rcases List.mem_cons.mp hmem with rfl | hmem
        · exact absurd hfails (not_fails_of_continues hpage)
        · exact hdone.failed ⟨reply', hmem, hfails⟩
      · intro hnone
        have hresult :=
          hdone.collected fun reply' hmem => hnone reply' (List.mem_cons_of_mem _ hmem)
        rw [List.append_assoc] at hresult
        exact hresult

theorem doPaginatedResourceRequest_chain (chain : Chain env) (authToken : String) (req : Request)
    (rest : List Reply) :
    ∃ done, doPaginatedResourceRequest env authToken req (chain.replies ++ rest) = some done ∧
      Collected env authToken req [] chain.replies rest done := by
  have hreplies : chain.replies ++ rest = chain.pages ++ chain.final :: rest := by
    rw [Chain.replies, List.append_assoc]
    rfl
  rw [doPaginatedResourceRequest, hreplies]
  exact pageLoop_chain chain.pages chain.continues chain.ends ⟨rfl, rfl, rfl, rfl⟩

theorem sourceIDsForResourceType_chain (chain : Chain env) (addr : Bytes)
    (resourceType authToken : String) (rest : List Reply) :
    ∃ done, sourceIDsForResourceType env addr resourceType authToken
      (chain.replies ++ rest) = some done ∧
      ((∃ err, done.result = .error err) ∨
        (∀ reply ∈ chain.replies, ¬ Fails env reply) ∧ done.rest = rest ∧
          done.result = .ok ((chain.replies.flatMap (resourcesOf env)).map Resource.guid)) := by
  rw [sourceIDsForResourceType]
  cases collectionRequest env addr ("/v3/" ++ resourceType) [("per_page", "5000")] with
  | error err => exact ⟨_, rfl, Or.inl ⟨_, rfl⟩⟩
  | ok req =>
      obtain ⟨done, hdone, hcollected⟩ := doPaginatedResourceRequest_chain chain authToken req rest
      simp only [hdone, Option.map_some]
      refine ⟨_, rfl, ?_⟩
      by_cases hfails : ∃ reply ∈ chain.replies, Fails env reply
      · obtain ⟨err, herr⟩ := hcollected.failed hfails
        exact Or.inl ⟨err, by rw [herr]; rfl⟩
      · push Not at hfails
        exact Or.inr ⟨hfails, hcollected.rest_eq, by rw [hcollected.collected hfails]; rfl⟩

theorem availableSourceIDs_chain (apps services : Chain env) (addr : Bytes) (authToken : String)
    (rest : List Reply) :
    ∃ ids, availableSourceIDs env addr authToken
      (apps.replies ++ (services.replies ++ rest)) = some ids ∧
      ((∃ reply ∈ apps.replies ++ services.replies, Fails env reply) → ids = []) := by
  obtain ⟨done, hdone, hresult⟩ :=
    sourceIDsForResourceType_chain apps addr "apps" authToken (services.replies ++ rest)
  rw [availableSourceIDs, hdone, Option.bind_some]
  rcases hresult with ⟨err, herr⟩ | ⟨happs, hrest, hok⟩
  · rw [herr]
    exact ⟨_, rfl, fun _ => rfl⟩
  obtain ⟨done', hdone', hresult'⟩ :=
    sourceIDsForResourceType_chain services addr "service_instances" authToken rest
  rw [hok, hrest]
  simp only [hdone', Option.map_some]
  refine ⟨_, rfl, ?_⟩
  rcases hresult' with ⟨err, herr⟩ | ⟨hservices, _, _⟩
  · rw [herr]
    exact fun _ => rfl
  · rintro ⟨reply, hmem, hfails⟩
    rcases List.mem_append.mp hmem with hmem | hmem
    · exact absurd hfails (happs reply hmem)
    · exact absurd hfails (hservices reply hmem)

theorem getRelatedSourceIds_chain (chain : Chain env) (addr : Bytes) (appNames : List String)
    (authToken : String) (rest : List Reply) :
    ∃ ids, getRelatedSourceIds env addr appNames authToken (chain.replies ++ rest) = some ids ∧
      ((∃ reply ∈ chain.replies, Fails env reply) → ids = ∅) := by
  rw [getRelatedSourceIds]
  split_ifs
  · exact ⟨_, rfl, fun _ => rfl⟩
  cases collectionRequest env addr "/v3/apps" [("names", ",".intercalate appNames),
    ("per_page", "5000")] with
  | error err => exact ⟨_, rfl, fun _ => rfl⟩
  | ok req =>
      obtain ⟨done, hdone, hcollected⟩ := doPaginatedResourceRequest_chain chain authToken req rest
      simp only [hdone, Option.map_some]
      refine ⟨_, rfl, fun hfails => ?_⟩
      obtain ⟨err, herr⟩ := hcollected.failed hfails
      rw [herr]

def knowing (pages : List (Bytes × Page)) : Environment where
  decode body := (pages.lookup body).elim (.error "EOF") .ok
  statusText _ := "OK"
  parseErrorText _ := "invalid URL"
  escapedPath _ := "/v3/apps"
  setQuery _ _ := bytesOf "per_page=5000"

theorem decode_knowing_head (body : Bytes) (page : Page) (pages : List (Bytes × Page)) :
    (knowing ((body, page) :: pages)).decode body = .ok page := by
  simp [knowing]

theorem decode_knowing_tail {body body' : Bytes} (h : body ≠ body') (page : Page)
    (pages : List (Bytes × Page)) :
    (knowing ((body', page) :: pages)).decode body = (knowing pages).decode body := by
  simp [knowing, List.lookup_cons, beq_eq_false_iff_ne.mpr h]

def firstBody : Bytes :=
  bytesOf ("\x7b\"pagination\":\x7b\"next\":\x7b\"href\":\"https://other/v3/apps\"\x7d\x7d," ++
    "\"resources\":[\x7b\"guid\":\"a\",\"name\":\"first\"\x7d]\x7d")

def lastBody : Bytes :=
  bytesOf ("\x7b\"pagination\":\x7b\"next\":null\x7d," ++
    "\"resources\":[\x7b\"guid\":\"b\",\"name\":\"second\"\x7d]\x7d")

def linked : Environment :=
  knowing [(firstBody, ⟨"https://other/v3/apps", [⟨"a", "first"⟩]⟩),
    (lastBody, ⟨"", [⟨"b", "second"⟩]⟩)]

theorem decode_firstBody :
    linked.decode firstBody = .ok ⟨"https://other/v3/apps", [⟨"a", "first"⟩]⟩ :=
  decode_knowing_head _ _ _

theorem decode_lastBody : linked.decode lastBody = .ok ⟨"", [⟨"b", "second"⟩]⟩ :=
  (decode_knowing_tail (by decide) _ _).trans (decode_knowing_head _ _ _)

def linkedPages : Chain linked where
  pages := [.ok ⟨200, firstBody⟩]
  final := .ok ⟨200, lastBody⟩
  continues := by
    intro reply hreply
    rw [List.mem_singleton.mp hreply]
    exact ⟨_, _, _, rfl, rfl, decode_firstBody, by decide, rfl⟩
  ends := by
    rintro ⟨resp, page, next, hresp, _, hpage, hhref, _⟩
    cases hresp
    rw [decode_lastBody] at hpage
    cases hpage
    exact hhref rfl

end chains

end LogCache.CapiPages
