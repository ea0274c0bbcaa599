import Ncrs.ForStd.XmlForest
import Ncrs.Native.Purge
import Ncrs.Native.RemoteHref

/-!
# Reading a listing

Model of `ResponseReader` and `parse_multistatus_stream` (`propfind.rs`). The reader is the list of the
events that are still to come; reading at its end is `Event::Eof`. What `e.unescape()` makes of a text is
part of its event. The date format of the `httpdate` crate is an argument, and the depth counters are
unbounded.
-/

namespace Ncrs

/-- What the XML reader gives, event by event. -/
abbrev Events := List (XmlEvent String)

/-- `tag_local_name`. -/
def tagLocalName (full : String) : String := String.ofList (full.toList.rtakeWhile (· ≠ ':'))

/-- `str::parse` for an unsigned integer below `bound`. -/
def parseBelow (bound : Nat) (t : Line) : Option Nat := (parseU64 t).filter (· < bound)

/-- The text of an XML error. -/
def xmlError (e : String) : String := "XML parse: " ++ e

/-- `RawResponse`; times are `τ`. -/
structure RawResponse (τ : Type) where
  href : Line := []
  isCollection : Bool := false
  contentLength : Nat := 0
  ocSize : Nat := 0
  lastModified : Option τ := none
  etag : Option String := none
  contentType : Option String := none
  hasPreview : Bool := false
  isShared : Bool := false
  permissions : Option String := none
  fileid : Option Nat := none
  ownerId : Option String := none
  ownerDisplayName : Option String := none
  lock : Bool := false
  lockOwner : Option String := none
  lockOwnerDisplay : Option String := none
  lockOwnerType : Option Nat := none
  deriving DecidableEq

/-- `locked_against`. -/
def RawResponse.lockedAgainst {τ : Type} (resp : RawResponse τ) (me : String) : Option String :=
  if !resp.lock || (resp.lockOwnerType == some 0 && resp.lockOwner == some me) then none
  else some ((resp.lockOwnerDisplay.orElse fun _ => resp.lockOwner).getD "another client")

/-- The properties `read_propstat` reads. -/
inductive Property where
  | resourcetype | getcontentlength | size | getetag | getcontenttype | getlastmodified | hasPreview
  | permissions | fileid | ownerId | ownerDisplayName | shareTypes
  | lock | lockOwner | lockOwnerDisplayname | lockOwnerType
  deriving DecidableEq

namespace Property

/-- The property an element's local name stands for. -/
def ofTag : String → Option Property
  | "resourcetype" => some resourcetype
  | "getcontentlength" => some getcontentlength
  | "size" => some size
  | "getetag" => some getetag
  | "getcontenttype" => some getcontenttype
  | "getlastmodified" => some getlastmodified
  | "has-preview" => some hasPreview
  | "permissions" => some permissions
  | "fileid" => some fileid
  | "owner-id" => some ownerId
  | "owner-display-name" => some ownerDisplayName
  | "share-types" => some shareTypes
  | "lock" => some lock
  | "lock-owner" => some lockOwner
  | "lock-owner-displayname" => some lockOwnerDisplayname
  | "lock-owner-type" => some lockOwnerType
  | _ => none

variable {τ : Type} (parseHttpDate : Line → Option τ)

/-- What a property does with its text; of `resourcetype` and `share-types` it is not the text that is read. -/
def store (p : Property) (t : Line) (resp : RawResponse τ) : RawResponse τ :=
  let label := readLabel (String.ofList t)
  match p with
  | resourcetype | shareTypes => resp
  | getcontentlength => { resp with contentLength := (parseBelow (2 ^ 64) t).getD 0 }
  | size => { resp with ocSize := (parseBelow (2 ^ 64) t).getD 0 }
  | getetag =>
    let etag := trim ((trim t).strip (· = '"'))
    { resp with etag := if etag.isEmpty then none else some (String.ofList etag) }
  | getcontenttype => { resp with contentType := some (String.ofList t) }
  | getlastmodified => { resp with lastModified := parseHttpDate t }
  | hasPreview => { resp with hasPreview := decide (t = "true".toList) }
  | permissions => { resp with permissions := some label }
  | fileid =>
    match parseBelow (2 ^ 64) t with
    | some id => { resp with fileid := some id }
    | none => resp
  | ownerId => { resp with ownerId := some label }
  | ownerDisplayName => { resp with ownerDisplayName := some label }
  | lock => if trim t = ['1'] then { resp with lock := true } else resp
  | lockOwner => if label ≠ "" then { resp with lockOwner := some label } else resp
  | lockOwnerDisplayname => if label ≠ "" then { resp with lockOwnerDisplay := some label } else resp
  | lockOwnerType =>
    match parseBelow (2 ^ 8) (trim t) with
    | some n => { resp with lockOwnerType := some n }
    | none => resp

end Property

/-! ## The loops of the reader -/

/-- `skip_element`. -/
def skipElement : Nat → Events → Except String Events
  | _, [] => .ok []
  | depth, .start _ :: es => skipElement (depth + 1) es
  | depth, .stop _ :: es => if depth - 1 = 0 then .ok es else skipElement (depth - 1) es
  | _, .failed e :: _ => .error (xmlError e)
  | depth, _ :: es => skipElement depth es

/-- A start tag goes one level deeper. -/
theorem skipElement_start (depth : Nat) (n : String) (es : Events) :
    skipElement depth (.start n :: es) = skipElement (depth + 1) es := rfl

/-- An end tag goes one level up, and ends the skip on the first. -/
theorem skipElement_stop (depth : Nat) (n : String) (es : Events) : skipElement depth (.stop n :: es) =
    if depth - 1 = 0 then .ok es else skipElement (depth - 1) es := rfl

/-- Skipping goes forward. -/
theorem length_skipElement {depth : Nat} {es rest : Events} (h : skipElement depth es = .ok rest) :
    rest.length ≤ es.length := by
  fun_induction skipElement depth es <;> grind

/-- `read_text` with the text so far. -/
def readText (text : Line) (es : Events) : Except String (Line × Events) :=
  match es with
  | [] => .ok (text, [])
  | .text (.ok t) :: es => readText (text ++ t) es
  | .text (.error e) :: _ => .error e
  | .stop _ :: es => .ok (text, es)
  | .start _ :: es =>
    match h : skipElement 1 es with
    | .error e => .error e
    | .ok rest =>
      have := length_skipElement h
      readText text rest
  | .failed e :: _ => .error (xmlError e)
  | .empty _ :: es | .other :: es => readText text es
termination_by es.length

/-- Reading text goes forward. -/
theorem length_readText {text t : Line} {es rest : Events} (h : readText text es = .ok (t, rest)) :
    rest.length ≤ es.length := by
  fun_induction readText text es <;> grind [length_skipElement]

/-- An element inside text is skipped. -/
theorem readText_start {text : Line} {n : String} {es rest : Events} (h : skipElement 1 es = .ok rest) :
    readText text (.start n :: es) = readText text rest := by
  rw [readText]
  split <;> simp_all

/-- `read_has_collection` with what was found so far. -/
def readHasCollection : Bool → Events → Except String (Bool × Events)
  | _, [] => .error "unexpected EOF in resourcetype"
  | found, .start n :: es | found, .empty n :: es =>
    readHasCollection (if tagLocalName n = "collection" then true else found) es
  | found, .stop n :: es =>
    if tagLocalName n = "resourcetype" then .ok (found, es) else readHasCollection found es
  | _, .failed e :: _ => .error (xmlError e)
  | found, _ :: es => readHasCollection found es

/-- `read_has_children` with what was found so far. -/
def readHasChildren (endTag : String) : Bool → Events → Except String (Bool × Events)
  | found, [] => .ok (found, [])
  | _, .start _ :: es | _, .empty _ :: es => readHasChildren endTag true es
  | found, .stop n :: es =>
    if tagLocalName n = endTag then .ok (found, es) else readHasChildren endTag found es
  | _, .failed e :: _ => .error (xmlError e)
  | found, _ :: es => readHasChildren endTag found es

/-- The end tag of the resource type ends its reader. -/
theorem readHasCollection_stop (found : Bool) (n : String) (es : Events) :
    readHasCollection found (.stop n :: es) =
    if tagLocalName n = "resourcetype" then .ok (found, es) else readHasCollection found es := rfl

/-- The end tag of the list ends its reader. -/
theorem readHasChildren_stop (endTag : String) (found : Bool) (n : String) (es : Events) :
    readHasChildren endTag found (.stop n :: es) =
      if tagLocalName n = endTag then .ok (found, es) else readHasChildren endTag found es := rfl

/-- The reader of the resource type goes forward. -/
theorem length_readHasCollection {found b : Bool} {es rest : Events}
    (h : readHasCollection found es = .ok (b, rest)) : rest.length ≤ es.length := by
  fun_induction readHasCollection found es <;> grind

/-- The reader of the children goes forward. -/
theorem length_readHasChildren {endTag : String} {found b : Bool} {es rest : Events}
    (h : readHasChildren endTag found es = .ok (b, rest)) : rest.length ≤ es.length := by
  fun_induction readHasChildren endTag found es <;> grind

/-- What a mapped success came from. -/
theorem exists_of_map_eq_ok {ε α β : Type} {x : Except ε α} {g : α → β} {b : β} (h : x.map g = .ok b) :
    ∃ a, x = .ok a ∧ g a = b := by
  cases x with
  | error e => simp [Except.map] at h
  | ok a => exact ⟨a, rfl, Except.ok.inj h⟩

section

variable {τ : Type} (parseHttpDate : Line → Option τ)

/-- One arm of `read_propstat`: the property whose start tag was read. -/
def readProperty (p : Property) (resp : RawResponse τ) (es : Events) :
    Except String (RawResponse τ × Events) :=
  match p with
  | .resourcetype => (readHasCollection false es).map fun (found, es) => ({ resp with isCollection := found }, es)
  | .shareTypes =>
    (readHasChildren "share-types" false es).map fun (found, es) => ({ resp with isShared := found }, es)
  | p => (readText [] es).map fun (text, es) => (p.store parseHttpDate text resp, es)

/-- The reader of a property goes forward. -/
theorem length_readProperty {p : Property} {resp resp' : RawResponse τ} {es rest : Events}
    (h : readProperty parseHttpDate p resp es = .ok (resp', rest)) : rest.length ≤ es.length := by
  unfold readProperty at h
  split at h
  · obtain ⟨⟨found, es'⟩, hr, heq⟩ := exists_of_map_eq_ok h
    cases heq
    exact length_readHasCollection hr
  · obtain ⟨⟨found, es'⟩, hr, heq⟩ := exists_of_map_eq_ok h
    cases heq
    exact length_readHasChildren hr
  · obtain ⟨⟨text, es'⟩, hr, heq⟩ := exists_of_map_eq_ok h
    cases heq
    exact length_readText hr

/-- `read_propstat`. -/
def readPropstat (resp : RawResponse τ) (es : Events) : Except String (RawResponse τ × Events) :=
  match es with
  | [] => .error "unexpected EOF in propstat"
  | .start n :: es =>
    match Property.ofTag (tagLocalName n) with
    | none => readPropstat resp es
    | some p =>
      match h : readProperty parseHttpDate p resp es with
      | .error e => .error e
      | .ok (resp', rest) =>
        have := length_readProperty parseHttpDate h
        readPropstat resp' rest
  | .stop n :: es => if tagLocalName n = "propstat" then .ok (resp, es) else readPropstat resp es
  | .failed e :: _ => .error (xmlError e)
  | .empty _ :: es | .text _ :: es | .other :: es => readPropstat resp es
termination_by es.length

/-- The reader of a propstat goes forward. -/
theorem length_readPropstat {resp resp' : RawResponse τ} {es rest : Events}
    (h : readPropstat parseHttpDate resp es = .ok (resp', rest)) : rest.length ≤ es.length := by
  fun_induction readPropstat parseHttpDate resp es <;> grind

/-- A start tag in `read_propstat`, without the proof that its recursion ends. -/
theorem readPropstat_start_eq (resp : RawResponse τ) (n : String) (es : Events) :
    readPropstat parseHttpDate resp (.start n :: es) =
      match Property.ofTag (tagLocalName n) with
      | none => readPropstat parseHttpDate resp es
      | some p =>
        match readProperty parseHttpDate p resp es with
        | .error e => .error e
        | .ok (resp', rest) => readPropstat parseHttpDate resp' rest := by
  rw [readPropstat]
  split
  · simp_all
  · split <;> simp_all

/-- An unknown element is read through. -/
theorem readPropstat_start_none {resp : RawResponse τ} {n : String} (es : Events)
    (h : Property.ofTag (tagLocalName n) = none) :
    readPropstat parseHttpDate resp (.start n :: es) = readPropstat parseHttpDate resp es := by
  rw [readPropstat_start_eq, h]

/-- A property's element is read as one. -/
theorem readPropstat_start {resp resp' : RawResponse τ} {n : String} {p : Property} {es rest : Events}
    (hn : Property.ofTag (tagLocalName n) = some p)
    (h : readProperty parseHttpDate p resp es = .ok (resp', rest)) :
    readPropstat parseHttpDate resp (.start n :: es) = readPropstat parseHttpDate resp' rest := by
  simp only [readPropstat_start_eq, hn, h]

/-- Any other end tag is passed over. -/
theorem readPropstat_stop {resp : RawResponse τ} {n : String} (es : Events)
    (h : tagLocalName n ≠ "propstat") :
    readPropstat parseHttpDate resp (.stop n :: es) = readPropstat parseHttpDate resp es := by
  rw [readPropstat, if_neg h]

/-- `read_response` at a depth, with what was read so far. -/
def readResponse (depth : Nat) (resp : RawResponse τ) (es : Events) : Except String (RawResponse τ × Events) :=
  match es with
  | [] => .error "unexpected EOF in response"
  | .start n :: es =>
    match tagLocalName n with
    | "response" => readResponse (depth + 1) resp es
    | "href" =>
      match h : readText [] es with
      | .error e => .error e
      | .ok (text, rest) =>
        have := length_readText h
        readResponse depth { resp with href := text } rest
    | "propstat" =>
      match h : readPropstat parseHttpDate resp es with
      | .error e => .error e
      | .ok (resp', rest) =>
        have := length_readPropstat parseHttpDate h
        readResponse depth resp' rest
    | _ => readResponse depth resp es
  | .stop n :: es =>
    if tagLocalName n ≠ "response" then readResponse depth resp es
    else if depth - 1 = 0 then .ok (resp, es)
    else readResponse (depth - 1) resp es
  | .failed e :: _ => .error (xmlError e)
  | .empty _ :: es | .text _ :: es | .other :: es => readResponse depth resp es
termination_by es.length

/-- The reader of a response goes forward. -/
theorem length_readResponse {depth : Nat} {resp resp' : RawResponse τ} {es rest : Events}
    (h : readResponse parseHttpDate depth resp es = .ok (resp', rest)) : rest.length ≤ es.length := by
  fun_induction readResponse parseHttpDate depth resp es with
  | case4 depth resp n es hn text rest₁ htext hle ih =>
    exact (ih h).trans (hle.trans (Nat.le_succ _))
  | case6 depth resp n es hn resp₁ rest₁ hprop hle ih =>
    exact (ih h).trans (hle.trans (Nat.le_succ _))
  | case9 depth resp n es hn hdepth =>
    cases h
    exact Nat.le_succ _
  | case2 | case7 | case8 | case10 | case12 | case13 | case14 =>
    rename_i ih
    exact (ih h).trans (Nat.le_succ _)
  | _ => cases h

/-- A start tag in `read_response`, without the proof that its recursion ends. -/
theorem readResponse_start_eq (depth : Nat) (resp : RawResponse τ) (n : String) (es : Events) :
    readResponse parseHttpDate depth resp (.start n :: es) =
      match tagLocalName n with
      | "response" => readResponse parseHttpDate (depth + 1) resp es
      | "href" =>
        match readText [] es with
        | .error e => .error e
        | .ok (href, rest) => readResponse parseHttpDate depth { resp with href } rest
      | "propstat" =>
        match readPropstat parseHttpDate resp es with
        | .error e => .error e
        | .ok (resp', rest) => readResponse parseHttpDate depth resp' rest
      | _ => readResponse parseHttpDate depth resp es := by
  rw [readResponse]
  split
  · simp_all
  · split <;> simp_all
  · split <;> simp_all
  · simp_all

/-- An href is read as text. -/
theorem readResponse_href {depth : Nat} {resp : RawResponse τ} {n : String} {text : Line} {es rest : Events}
    (hn : tagLocalName n = "href") (h : readText [] es = .ok (text, rest)) :
    readResponse parseHttpDate depth resp (.start n :: es) =
      readResponse parseHttpDate depth { resp with href := text } rest := by
  simp only [readResponse_start_eq, hn, h]

/-- A propstat is read by its own reader. -/
theorem readResponse_propstat {depth : Nat} {resp resp' : RawResponse τ} {n : String} {es rest : Events}
    (hn : tagLocalName n = "propstat") (h : readPropstat parseHttpDate resp es = .ok (resp', rest)) :
    readResponse parseHttpDate depth resp (.start n :: es) = readResponse parseHttpDate depth resp' rest := by
  simp only [readResponse_start_eq, hn, h]

/-- A response inside another one goes one level deeper. -/
theorem readResponse_response {depth : Nat} {resp : RawResponse τ} {n : String} (es : Events)
    (hn : tagLocalName n = "response") :
    readResponse parseHttpDate depth resp (.start n :: es) =
      readResponse parseHttpDate (depth + 1) resp es := by
  simp only [readResponse_start_eq, hn]

/-- Any other element is read through. -/
theorem readResponse_other {depth : Nat} {resp : RawResponse τ} {n : String} (es : Events)
    (hr : tagLocalName n ≠ "response") (hh : tagLocalName n ≠ "href") (hp : tagLocalName n ≠ "propstat") :
    readResponse parseHttpDate depth resp (.start n :: es) = readResponse parseHttpDate depth resp es := by
  rw [readResponse_start_eq]
  split <;> simp_all

/-- `next_response`. -/
def nextResponse : Events → Except String (Option (RawResponse τ × Events))
  | [] => .ok none
  | .start n :: es =>
    if tagLocalName n = "response" then (readResponse parseHttpDate 1 {} es).map some else nextResponse es
  | .failed e :: _ => .error (xmlError e)
  | _ :: es => nextResponse es

/-- The search for a response goes forward. -/
theorem length_nextResponse {resp : RawResponse τ} {es rest : Events}
    (h : nextResponse parseHttpDate es = .ok (some (resp, rest))) : rest.length < es.length := by
  fun_induction nextResponse parseHttpDate es with
  | case2 n es hn =>
    obtain ⟨⟨resp', es'⟩, hr, heq⟩ := exists_of_map_eq_ok h
    cases heq
    have := length_readResponse parseHttpDate hr
    simp only [List.length_cons]
    omega
  | _ => grind

/-! ## The listing -/

/-- `DavEntry`. -/
structure DavEntry (τ : Type) where
  path : PathBuf
  isDir : Bool
  size : Nat
  modified : Option τ
  etag : Option String
  contentType : Option String
  hasPreview : Bool
  isShared : Bool
  permissions : Option String
  fileid : Option Nat
  ownerId : Option String
  lockedBy : Option String
  ownerDisplayName : Option String
  deriving DecidableEq

/-- The entry of a response, for the user `me`. -/
def RawResponse.toEntry (resp : RawResponse τ) (me : String) (remotePath : PathBuf) : DavEntry τ where
  path := remotePath
  isDir := resp.isCollection
  size := if resp.isCollection then resp.ocSize else resp.contentLength
  modified := resp.lastModified
  etag := resp.etag
  contentType := resp.contentType
  hasPreview := resp.hasPreview
  isShared := resp.isShared
  permissions := resp.permissions
  fileid := resp.fileid
  ownerId := resp.ownerId
  lockedBy := resp.lockedAgainst me
  ownerDisplayName := resp.ownerDisplayName

/-- What `parse_multistatus_stream` has collected. -/
structure StreamListing (τ : Type) where
  dirEtag : Option String := none
  selfEntry : Option (DavEntry τ) := none
  entries : List (DavEntry τ) := []
  isFirst : Bool := true

/-- One turn of the loop of `parse_multistatus_stream`. -/
def StreamListing.add (k : PercentEncoding.Coder) (pre : Line) (me : String) (l : StreamListing τ)
    (resp : RawResponse τ) : StreamListing τ :=
  match hrefToRemotePath k resp.href pre with
  | none => if l.isFirst then { l with dirEtag := resp.etag, isFirst := false } else l
  | some remotePath =>
    let entry := resp.toEntry me remotePath
    if l.isFirst then { l with dirEtag := resp.etag, selfEntry := some entry, isFirst := false }
    else { l with entries := l.entries ++ [entry] }

/-- The loop of `parse_multistatus_stream`. -/
def listResponses (k : PercentEncoding.Coder) (pre : Line) (me : String) (l : StreamListing τ) (es : Events) :
    Except String (StreamListing τ) :=
  match h : nextResponse parseHttpDate es with
  | .error e => .error e
  | .ok none => .ok l
  | .ok (some (resp, rest)) =>
    have := length_nextResponse parseHttpDate h
    listResponses k pre me (l.add k pre me resp) rest
termination_by es.length

/-- `parse_multistatus_stream`. -/
def parseMultistatusStream (k : PercentEncoding.Coder) (urlPath : Line → Option Line) (es : Events)
    (webdavUrl : Line) (me : String) :
    Except String (Option String × Option (DavEntry τ) × List (DavEntry τ)) := do
  let l ← listResponses parseHttpDate k (webdavPrefix urlPath webdavUrl) me {} es
  return (l.dirEtag, l.selfEntry, l.entries)

end

end Ncrs
