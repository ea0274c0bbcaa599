import Ncrs.Spec.PropfindCorrect

/-!
# A listing body that breaks off

A multistatus document is read to the end, or up to a cut before its end tag. The loop over the responses
takes the end of its input for the end of the document, so a body that breaks off between two responses is
a shorter directory. Inside a response the cut is an error, whatever loop sees it.

## Key results

- `listResponses_events`: the loop makes one entry from each response and goes on behind it.
- `isError_listResponses_iff`: after a cut it fails if and only if a response is open.
- `cut_is_error_iff`: both for `parse_multistatus_stream`, over a whole document.
-/

namespace Ncrs

open XmlForest
open XmlEvent (starts stops)

variable {τ : Type} (parseHttpDate : Line → Option τ)

/-- What is in a multistatus: responses, and other nodes without responses in them. -/
def IsListing : XmlForest → Prop
  | .nil => True
  | .element n sub rest =>
    (if tagLocalName n = "response" then PropstatsApart sub else Without "response" sub) ∧ IsListing rest
  | .empty n rest => tagLocalName n ≠ "response" ∧ IsListing rest
  | .text _ rest | .other rest => IsListing rest

/-- The hrefs of the responses, in document order. -/
def responseHrefs : XmlForest → List Line
  | .nil => []
  | .element n sub rest =>
    if tagLocalName n = "response" then (hrefs sub).getLastD [] :: responseHrefs rest else responseHrefs rest
  | .empty _ rest | .text _ rest | .other rest => responseHrefs rest

/-- A well-formed multistatus document. -/
structure Multistatus where
  before : XmlForest
  root : String
  content : XmlForest
  after : XmlForest
  without_before : Without "response" before
  root_name : tagLocalName root = "multistatus"
  isListing : IsListing content
  without_after : Without "response" after

namespace Multistatus

/-- The events before the end tag of the multistatus. -/
def opened (doc : Multistatus) : Events := doc.before.events ++ .start doc.root :: doc.content.events

/-- The events of a document. -/
def events (doc : Multistatus) : Events := doc.opened ++ .stop doc.root :: doc.after.events

end Multistatus

/-- The tag of a response. -/
def isResponse (n : String) : Bool := tagLocalName n = "response"

/-- Any other tag is none. -/
theorem isResponse_eq_false {n : String} (h : tagLocalName n ≠ "response") : isResponse n = false :=
  decide_eq_false h

/-- In a forest without responses none starts or ends. -/
theorem without_events {f : XmlForest} (hf : Without "response" f) {p : Events} (hp : p <+: f.events) :
    starts isResponse p = 0 ∧ stops isResponse p = 0 :=
  ⟨XmlEvent.starts_eq_zero fun _ hn => isResponse_eq_false (hf _ (start_mem_events.mp (hp.mem hn))),
    XmlEvent.stops_eq_zero fun _ hn => isResponse_eq_false (hf _ (stop_mem_events.mp (hp.mem hn)))⟩

/-! ## One turn -/

/-- A start tag is a response's, or is passed over. -/
theorem nextResponse_start_eq (n : String) (es : Events) :
    nextResponse parseHttpDate (.start n :: es) =
      if tagLocalName n = "response" then (readResponse parseHttpDate 1 {} es).map some
      else nextResponse parseHttpDate es := rfl

/-- A start tag that is no response's is passed over. -/
theorem nextResponse_start (n : String) (es : Events) (h : tagLocalName n ≠ "response") :
    nextResponse parseHttpDate (.start n :: es) = nextResponse parseHttpDate es := by
  rw [nextResponse_start_eq, if_neg h]

/-- Between the responses everything is passed over. -/
theorem nextResponse_append {w : Events} (hread : ∀ e ∈ w, e.isRead)
    (hw : ∀ n, .start n ∈ w → tagLocalName n ≠ "response") (es : Events) :
    nextResponse parseHttpDate (w ++ es) = nextResponse parseHttpDate es := by
  induction w with
  | nil => rfl
  | cons e w ih =>
    have hih := ih (fun e he => hread e (List.mem_cons_of_mem _ he)) fun n hn =>
      hw n (List.mem_cons_of_mem _ hn)
    have he := hread e List.mem_cons_self
    cases e with
    | start n => simpa [nextResponse_start parseHttpDate n _ (hw n List.mem_cons_self)] using hih
    | failed e => simp [XmlEvent.isRead] at he
    | _ => exact hih

/-- Without a response in it, content is passed over. -/
theorem nextResponse_without {f : XmlForest} (hf : Without "response" f) {p : Events} (hp : p <+: f.events)
    (es : Events) : nextResponse parseHttpDate (p ++ es) = nextResponse parseHttpDate es :=
  nextResponse_append parseHttpDate (fun _ he => isRead_of_mem_events (hp.mem he))
    (fun n hn => hf n (start_mem_events.mp (hp.mem hn))) es

section

variable (k : PercentEncoding.Coder) (pre : Line) (me : String) (l : StreamListing τ)

/-- One turn of the loop, without the proof that it ends. -/
theorem listResponses_eq (es : Events) :
    listResponses parseHttpDate k pre me l es =
      match nextResponse parseHttpDate es with
      | .error e => .error e
      | .ok none => .ok l
      | .ok (some (resp, rest)) => listResponses parseHttpDate k pre me (l.add k pre me resp) rest := by
  rw [listResponses]
  split <;> simp_all

/-- A listing depends on the next response only. -/
theorem listResponses_congr {es es' : Events}
    (h : nextResponse parseHttpDate es = nextResponse parseHttpDate es') :
    listResponses parseHttpDate k pre me l es = listResponses parseHttpDate k pre me l es' := by
  rw [listResponses_eq, listResponses_eq, h]

/-- A response that is read is added. -/
theorem listResponses_response {n : String} (hn : tagLocalName n = "response") {es rest : Events}
    {resp : RawResponse τ} (h : readResponse parseHttpDate 1 {} es = .ok (resp, rest)) :
    listResponses parseHttpDate k pre me l (.start n :: es) =
      listResponses parseHttpDate k pre me (l.add k pre me resp) rest := by
  have hnext : nextResponse parseHttpDate (.start n :: es) = .ok (some (resp, rest)) := by
    rw [nextResponse_start_eq, if_pos hn, h]
    rfl
  rw [listResponses_eq, hnext]

/-- A response that is not read fails the listing. -/
theorem listResponses_error {n : String} (hn : tagLocalName n = "response") {es : Events} {e : String}
    (h : readResponse parseHttpDate 1 {} es = .error e) :
    listResponses parseHttpDate k pre me l (.start n :: es) = .error e := by
  have hnext : nextResponse parseHttpDate (.start n :: es) = .error e := by
    rw [nextResponse_start_eq, if_pos hn, h]
    rfl
  rw [listResponses_eq, hnext]

/-- At the end of the events the listing is done. -/
theorem listResponses_nil : listResponses parseHttpDate k pre me l [] = .ok l := by
  have hnext : nextResponse parseHttpDate [] = .ok (none : Option (RawResponse τ × Events)) := rfl
  rw [listResponses_eq, hnext]

/-! ## The content of a multistatus -/

/-- The loop makes one entry from each response and goes on behind it. -/
theorem listResponses_events {f : XmlForest} (hf : IsListing f) :
    ∃ raws : List (RawResponse τ), raws.map (·.href) = responseHrefs f ∧ ∀ es,
      listResponses parseHttpDate k pre me l (f.events ++ es) =
        listResponses parseHttpDate k pre me (raws.foldl (StreamListing.add k pre me) l) es := by
  induction f generalizing l with
  | nil => exact ⟨[], rfl, fun es => rfl⟩
  | element n sub rest ihSub ihRest =>
    obtain ⟨hsub, hrest⟩ := hf
    simp only [XmlForest.events, List.cons_append, List.append_assoc, responseHrefs]
    by_cases hn : tagLocalName n = "response"
    · rw [if_pos hn] at hsub ⊢
      obtain ⟨resp, hhref, hok⟩ := readResponse_element parseHttpDate hsub hn
      obtain ⟨raws, hraws, hlist⟩ := ihRest (l.add k pre me resp) hrest
      refine ⟨resp :: raws, by rw [List.map_cons, hhref, hraws], fun es => ?_⟩
      rw [listResponses_response parseHttpDate k pre me l hn (hok _)]
      exact hlist es
    · rw [if_neg hn] at hsub ⊢
      obtain ⟨raws, hraws, hlist⟩ := ihRest l hrest
      refine ⟨raws, hraws, fun es => Eq.trans (listResponses_congr parseHttpDate k pre me l ?_) (hlist es)⟩
      rw [nextResponse_start parseHttpDate n _ hn, nextResponse_without parseHttpDate hsub List.prefix_rfl]
      rfl
  | empty n rest ih =>
    obtain ⟨raws, hraws, hlist⟩ := ih l hf.2
    refine ⟨raws, hraws, fun es => Eq.trans ?_ (hlist es)⟩
    exact listResponses_congr parseHttpDate k pre me l rfl
  | text t rest ih | other rest ih =>
    obtain ⟨raws, hraws, hlist⟩ := ih l hf
    refine ⟨raws, hraws, fun es => Eq.trans ?_ (hlist es)⟩
    exact listResponses_congr parseHttpDate k pre me l rfl

/-- After a cut the loop fails if and only if a response is open. -/
theorem isError_listResponses_iff {f : XmlForest} (hf : IsListing f) {p : Events} (hp : p <+: f.events) :
    (∃ e, listResponses parseHttpDate k pre me l p = .error e) ↔ starts isResponse p ≠ stops isResponse p := by
  induction f generalizing l p with
  | nil => simp [List.prefix_nil.mp hp, listResponses_nil]
  | element n sub rest ihSub ihRest =>
    obtain ⟨hsub, hrest⟩ := hf
    have heq := stops_eq_starts (ε := String) isResponse sub
    rcases prefix_element hp with rfl | ⟨q, rfl, hq⟩ | ⟨q, rfl, hq⟩
    · simp [listResponses_nil]
    · -- cut inside the element
      by_cases hn : tagLocalName n = "response"
      · rw [if_pos hn] at hsub
        obtain ⟨e, he⟩ := readResponse_cut parseHttpDate hsub hn hq
        have hle := stops_le_starts isResponse hq
        rw [listResponses_error parseHttpDate k pre me l hn he]
        simp [isResponse, hn] at hle ⊢
        omega
      · rw [if_neg hn] at hsub
        obtain ⟨hstarts, hstops⟩ := without_events hsub hq
        have hnext : nextResponse parseHttpDate (.start n :: q) = nextResponse parseHttpDate [] := by
          rw [nextResponse_start parseHttpDate n q hn, ← List.append_nil q]
          exact nextResponse_without parseHttpDate hsub hq []
        rw [listResponses_congr parseHttpDate k pre me l hnext, listResponses_nil]
        simp [isResponse_eq_false hn, hstarts, hstops]
    · -- cut behind the element
      by_cases hn : tagLocalName n = "response"
      · rw [if_pos hn] at hsub
        obtain ⟨resp, -, hok⟩ := readResponse_element parseHttpDate hsub hn
        rw [listResponses_response parseHttpDate k pre me l hn (hok q), ihRest (l.add k pre me resp) hrest hq]
        simp [heq]
        omega
      · rw [if_neg hn] at hsub
        have hnext : nextResponse parseHttpDate (.start n :: (sub.events ++ .stop n :: q)) =
            nextResponse parseHttpDate q := by
          rw [nextResponse_start parseHttpDate n _ hn, nextResponse_without parseHttpDate hsub List.prefix_rfl]
          rfl
        rw [listResponses_congr parseHttpDate k pre me l hnext, ihRest l hrest hq]
        simp [heq, isResponse_eq_false hn]
  | empty n rest ih =>
    -- a tag without content is no response with anything in it
    obtain rfl | ⟨q, rfl, hq⟩ := List.prefix_cons_iff.mp hp
    · simp [listResponses_nil]
    · have hnext : nextResponse parseHttpDate (.empty n :: q) = nextResponse parseHttpDate q := rfl
      rw [listResponses_congr parseHttpDate k pre me l hnext, ih l hf.2 hq]
      simp
  | text t rest ih =>
    -- text and the rest are passed over
    obtain rfl | ⟨q, rfl, hq⟩ := List.prefix_cons_iff.mp hp
    · simp [listResponses_nil]
    · have hnext : nextResponse parseHttpDate (.text (.ok t) :: q) = nextResponse parseHttpDate q := rfl
      rw [listResponses_congr parseHttpDate k pre me l hnext, ih l hf hq]
      simp
  | other rest ih =>
    obtain rfl | ⟨q, rfl, hq⟩ := List.prefix_cons_iff.mp hp
    · simp [listResponses_nil]
    · have hnext : nextResponse parseHttpDate (.other :: q) = nextResponse parseHttpDate q := rfl
      rw [listResponses_congr parseHttpDate k pre me l hnext, ih l hf hq]
      simp

/-! ## The document -/

/-- After the first response only entries are added. -/
theorem paths_foldl_add {l : StreamListing τ} (hl : l.isFirst = false) (raws : List (RawResponse τ)) :
    (raws.foldl (StreamListing.add k pre me) l).selfEntry = l.selfEntry ∧
      (raws.foldl (StreamListing.add k pre me) l).entries.map (·.path) =
        l.entries.map (·.path) ++ (raws.map (·.href)).filterMap (hrefToRemotePath k · pre) := by
  induction raws generalizing l with
  | nil => simp
  | cons resp raws ih =>
    cases hpath : hrefToRemotePath k resp.href pre with
    | none =>
      have hadd : l.add k pre me resp = l := by simp [StreamListing.add, hpath, hl]
      simpa [hadd, hpath] using ih hl
    | some path =>
      have hadd : l.add k pre me resp = { l with entries := l.entries ++ [resp.toEntry me path] } := by
        simp [StreamListing.add, hpath, hl]
      obtain ⟨hself, hentries⟩ := ih (l := l.add k pre me resp) (by rw [hadd]; exact hl)
      refine ⟨by rw [List.foldl_cons, hself, hadd], ?_⟩
      rw [List.foldl_cons, hentries, hadd]
      simp [hpath, RawResponse.toEntry]

/-- The first response is the directory itself, also when its path is not accepted. -/
theorem paths_listing (raws : List (RawResponse τ)) :
    (raws.foldl (StreamListing.add k pre me) {}).selfEntry.map (·.path) =
        (raws.map (·.href)).head?.bind (hrefToRemotePath k · pre) ∧
      (raws.foldl (StreamListing.add k pre me) {}).entries.map (·.path) =
        (raws.map (·.href)).tail.filterMap (hrefToRemotePath k · pre) := by
  cases raws with
  | nil => simp
  | cons resp raws =>
    cases hpath : hrefToRemotePath k resp.href pre with
    | none =>
      have hadd : StreamListing.add k pre me {} resp = { dirEtag := resp.etag, isFirst := false } := by
        simp [StreamListing.add, hpath]
      rw [List.foldl_cons, hadd]
      simpa [hpath] using paths_foldl_add k pre me (l := { dirEtag := resp.etag, isFirst := false }) rfl raws
    | some path =>
      have hadd : StreamListing.add k pre me {} resp =
          { dirEtag := resp.etag, selfEntry := some (resp.toEntry me path), isFirst := false } := by
        simp [StreamListing.add, hpath]
      obtain ⟨hself, hentries⟩ :=
        paths_foldl_add k pre me (l := StreamListing.add k pre me {} resp) (by rw [hadd]) raws
      rw [hadd] at hself hentries
      rw [List.foldl_cons, hadd, hself, hentries]
      simp [hpath, RawResponse.toEntry]

/-- A document is listed as what stands in its root. -/
theorem listResponses_document (doc : Multistatus) (es : Events) :
    listResponses parseHttpDate k pre me {} (doc.before.events ++ .start doc.root :: es) =
      listResponses parseHttpDate k pre me {} es := by
  refine listResponses_congr parseHttpDate k pre me {} ?_
  rw [nextResponse_without parseHttpDate doc.without_before List.prefix_rfl, nextResponse_start]
  rw [doc.root_name]
  decide

end

/-- The parse is the listing, with the URL's prefix. -/
theorem parseMultistatusStream_eq (k : PercentEncoding.Coder) (urlPath : Line → Option Line) (es : Events)
    (webdavUrl : Line) (me : String) :
    parseMultistatusStream parseHttpDate k urlPath es webdavUrl me =
      (listResponses parseHttpDate k (webdavPrefix urlPath webdavUrl) me {} es).map
        fun l => (l.dirEtag, l.selfEntry, l.entries) := by
  rw [parseMultistatusStream]
  cases listResponses parseHttpDate k (webdavPrefix urlPath webdavUrl) me {} es <;> rfl

/-- The parse fails exactly when the listing does. -/
theorem isError_parse_iff {k : PercentEncoding.Coder} {urlPath : Line → Option Line} {es : Events}
    {webdavUrl : Line} {me : String} :
    (∃ e, parseMultistatusStream parseHttpDate k urlPath es webdavUrl me = .error e) ↔
      ∃ e, listResponses parseHttpDate k (webdavPrefix urlPath webdavUrl) me {} es = .error e := by
  rw [parseMultistatusStream_eq]
  cases listResponses parseHttpDate k (webdavPrefix urlPath webdavUrl) me {} es <;> simp [Except.map]

/-- A cut of a document is in what comes before the multistatus, or in its content. -/
theorem Multistatus.cut_cases (doc : Multistatus) {cut : Events} (h : cut <+: doc.opened) :
    cut <+: doc.before.events ∨ ∃ q, cut = doc.before.events ++ .start doc.root :: q ∧
    q <+: doc.content.events := by
  rcases List.prefix_or_prefix_of_prefix h (List.prefix_append _ _) with hcut | ⟨r, rfl⟩
  · exact .inl hcut
  · rw [opened, List.prefix_append_right_inj] at h
    obtain rfl | ⟨q, rfl, hq⟩ := List.prefix_cons_iff.mp h
    · exact .inl (by simp)
    · exact .inr ⟨q, rfl, hq⟩

/-- The whole document gives one entry for each response with an accepted href, the first one as the directory
itself. Cut before the end tag of the multistatus, it is an error if and only if the cut is inside a
response. -/
theorem cut_is_error_iff (k : PercentEncoding.Coder) (urlPath : Line → Option Line)
    (webdavUrl : Line) (me : String)
    (doc : Multistatus) :
    (∃ dirEtag selfEntry entries,
      parseMultistatusStream parseHttpDate k urlPath doc.events webdavUrl me =
        .ok (dirEtag, selfEntry, entries) ∧
      selfEntry.map (·.path) =
        (responseHrefs doc.content).head?.bind (hrefToRemotePath k · (webdavPrefix urlPath webdavUrl)) ∧
      entries.map (·.path) =
        (responseHrefs doc.content).tail.filterMap (hrefToRemotePath k · (webdavPrefix urlPath webdavUrl))) ∧
    ∀ cut, cut <+: doc.opened →
      ((∃ e, parseMultistatusStream parseHttpDate k urlPath cut webdavUrl me = .error e) ↔
        starts isResponse cut ≠ stops isResponse cut) := by
  set pre := webdavPrefix urlPath webdavUrl
  constructor
  · -- a whole document: every response is read, and nothing follows them
    obtain ⟨raws, hraws, hlist⟩ := listResponses_events parseHttpDate k pre me {} doc.isListing
    have hrest : nextResponse parseHttpDate (.stop doc.root :: doc.after.events) =
      nextResponse parseHttpDate [] := by
      have hafter := nextResponse_without parseHttpDate doc.without_after List.prefix_rfl []
      rw [List.append_nil] at hafter
      exact hafter
    have hall : listResponses parseHttpDate k pre me {} doc.events =
      .ok (raws.foldl (StreamListing.add k pre me) {}) := by
      rw [Multistatus.events, Multistatus.opened, List.append_assoc, List.cons_append, listResponses_document,
        hlist, listResponses_congr parseHttpDate k pre me _ hrest, listResponses_nil]
    obtain ⟨hself, hentries⟩ := paths_listing k pre me raws
    rw [hraws] at hself hentries
    exact ⟨_, _, _, by rw [parseMultistatusStream_eq, hall]; rfl, hself, hentries⟩
  · intro cut hcut
    rw [isError_parse_iff]
    -- a cut is before the root, or in it
    rcases doc.cut_cases hcut with hbefore | ⟨q, rfl, hq⟩
    · obtain ⟨hstarts, hstops⟩ := without_events doc.without_before hbefore
      have hnext : nextResponse parseHttpDate cut = nextResponse parseHttpDate [] := by
        rw [← List.append_nil cut]
        exact nextResponse_without parseHttpDate doc.without_before hbefore []
      rw [listResponses_congr parseHttpDate k pre me {} hnext, listResponses_nil]
      simp [hstarts, hstops]
    · -- in the root the cut counts the responses it begins and ends
      obtain ⟨hstarts, hstops⟩ := without_events doc.without_before List.prefix_rfl
      have hroot : isResponse doc.root = false := isResponse_eq_false (by rw [doc.root_name]; decide)
      rw [listResponses_document, isError_listResponses_iff parseHttpDate k pre me {} doc.isListing hq]
      simp [hstarts, hstops, hroot]

/-- A response with nothing but its href. -/
def bareResponse (href : String) (rest : XmlForest) : XmlForest :=
  .element "d:response" (.element "d:href" (.text href.toList .nil) .nil) rest

/-- A bare response may stand in a listing. -/
theorem isListing_bareResponse (href : String) {rest : XmlForest} (h : IsListing rest) :
    IsListing (bareResponse href rest) := by
  have hr : tagLocalName "d:response" = "response" := by decide
  have hh : tagLocalName "d:href" = "href" := by decide
  simpa [bareResponse, IsListing, PropstatsApart, hr, hh] using h

/-- A directory with one file in it. -/
def oneFileListing : Multistatus where
  before := .other .nil
  root := "d:multistatus"
  content := bareResponse "/dav/" (bareResponse "/dav/a" .nil)
  after := .nil
  without_before := by simp [Without, elementNames]
  root_name := by decide
  isListing := isListing_bareResponse _ (isListing_bareResponse _ trivial)
  without_after := by simp [Without, elementNames]

/-- What the `url` crate reads in the URL below. -/
def plainUrlPath (url : Line) : Option Line := some (pathPart url)

/-- Cut inside the first href, the document is an error. -/
theorem cut_is_error_iff_in_href :
    ∃ e, parseMultistatusStream (fun _ => (none : Option Nat)) PercentEncoding.coder plainUrlPath
      [.other, .start "d:multistatus", .start "d:response", .start "d:href"] "https://h/dav".toList
        "u" = .error e :=
  ((cut_is_error_iff (fun _ => none) PercentEncoding.coder plainUrlPath "https://h/dav".toList "u"
    oneFileListing).2
    [.other, .start "d:multistatus", .start "d:response", .start "d:href"]
    ⟨_, rfl⟩).mpr (by decide)

/-- Cut between the directory's response and the one of its file, the body is an empty directory. -/
theorem cut_between_responses_is_shorter :
    ∃ cut, cut <+: oneFileListing.opened ∧ (responseHrefs oneFileListing.content).length = 2 ∧
      ∃ dirEtag selfEntry, parseMultistatusStream (fun _ => (none : Option Nat))
        PercentEncoding.coder plainUrlPath cut
        "https://h/dav".toList "u" = .ok (dirEtag, selfEntry, []) := by
  have hbare := @isListing_bareResponse "/dav/" .nil trivial
  set pre := webdavPrefix plainUrlPath "https://h/dav".toList
  obtain ⟨raws, hraws, hlist⟩ :=
    listResponses_events (fun _ => (none : Option Nat)) PercentEncoding.coder pre "u" {} hbare
  refine ⟨oneFileListing.before.events ++ .start "d:multistatus" :: (bareResponse "/dav/" .nil).events,
    ⟨(bareResponse "/dav/a" .nil).events, rfl⟩, by decide, ?_⟩
  have hrun := listResponses_document (fun _ => (none : Option Nat)) PercentEncoding.coder pre "u"
    oneFileListing ((bareResponse "/dav/" .nil).events ++ [])
  rw [hlist, listResponses_nil, List.append_nil] at hrun
  obtain ⟨-, hentries⟩ := paths_listing PercentEncoding.coder pre "u" raws
  have hone : responseHrefs (bareResponse "/dav/" .nil) = ["/dav/".toList] := by decide
  rw [hraws, hone, List.tail_cons, List.filterMap_nil, List.map_eq_nil_iff] at hentries
  generalize raws.foldl (StreamListing.add PercentEncoding.coder pre "u") {} = l at hrun hentries
  refine ⟨l.dirEtag, l.selfEntry, ?_⟩
  rw [parseMultistatusStream_eq]
  calc
    _ = Except.map _ (.ok l) := congrArg _ hrun
    _ = .ok (l.dirEtag, l.selfEntry, []) := by rw [Except.map, hentries]

end Ncrs
