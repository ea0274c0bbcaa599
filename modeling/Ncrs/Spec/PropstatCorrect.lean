import Ncrs.Spec.PropfindCorrect

/-!
# Properties under several propstats

`read_propstat` folds every propstat of a response into one record and does not look at its status. A
property without a value comes back under a 404 propstat, as an empty element. Five properties ignore an empty
element; the other eleven take it for their value, so the last of their elements that has an end tag counts.

## Key results

- `readResponse_isResponse`: reading a response is storing its property elements in order.
- `value_foldl_apply`: what a record says of a property is what the last element of it says.
- `found_values_kept_iff`: the values of the 200 propstat are kept if and only if no empty element of the
  eleven comes after one.
-/

namespace Ncrs

open XmlForest

/-- What a response says of one property. -/
inductive PropertyValue (τ : Type) where
  | flag (b : Bool)
  | number (n : Nat)
  | id (n : Option Nat)
  | text (t : Option String)
  | time (t : Option τ)

variable {τ : Type} (parseHttpDate : Line → Option τ)

/-- What a response says of a property. -/
def RawResponse.value (resp : RawResponse τ) : Property → PropertyValue τ
  | .resourcetype => .flag resp.isCollection
  | .getcontentlength => .number resp.contentLength
  | .size => .number resp.ocSize
  | .getetag => .text resp.etag
  | .getcontenttype => .text resp.contentType
  | .getlastmodified => .time resp.lastModified
  | .hasPreview => .flag resp.hasPreview
  | .permissions => .text resp.permissions
  | .fileid => .id resp.fileid
  | .ownerId => .text resp.ownerId
  | .ownerDisplayName => .text resp.ownerDisplayName
  | .shareTypes => .flag resp.isShared
  | .lock => .flag resp.lock
  | .lockOwner => .text resp.lockOwner
  | .lockOwnerDisplayname => .text resp.lockOwnerDisplay
  | .lockOwnerType => .id resp.lockOwnerType

namespace Property

/-- What a whole element of the property makes of a record. -/
def read (p : Property) (content : XmlForest) (resp : RawResponse τ) : RawResponse τ :=
  match p with
  | resourcetype => { resp with isCollection := content.tagNames.any (tagLocalName · = "collection") }
  | shareTypes => { resp with isShared := !content.tagNames.isEmpty }
  | p => p.store parseHttpDate content.ownText resp

/-- The value an empty element with an end tag gives the property; `none` if it is ignored. -/
def emptyValue : Property → Option (PropertyValue τ)
  | resourcetype | hasPreview | shareTypes => some (.flag false)
  | getcontentlength | size => some (.number 0)
  | getetag => some (.text none)
  | getcontenttype | permissions | ownerId | ownerDisplayName => some (.text (some ""))
  | getlastmodified => some (.time (parseHttpDate []))
  | fileid | lock | lockOwner | lockOwnerDisplayname | lockOwnerType => none

end Property

/-! ## One property -/

/-- A property writes no other one. -/
theorem value_read_ne {p q : Property} (h : p ≠ q) (content : XmlForest) (resp : RawResponse τ) :
    (q.read parseHttpDate content resp).value p = resp.value p := by
  cases q <;> simp only [Property.read, Property.store] <;> (try split) <;> cases p <;> first | rfl | exact absurd rfl h

/-- What a property becomes depends on nothing else in the record. -/
theorem value_read_congr {p : Property} {resp resp' : RawResponse τ} (h : resp.value p = resp'.value p)
    (content : XmlForest) :
    (p.read parseHttpDate content resp).value p = (p.read parseHttpDate content resp').value p := by
  cases p <;> simp only [Property.read, Property.store] <;> (try split) <;> first | rfl | exact h

/-- An empty element of a property that has no value for it says nothing. -/
theorem value_read_nil_of_none {p : Property} (h : p.emptyValue parseHttpDate = none) (resp : RawResponse τ) :
    (p.read parseHttpDate .nil resp).value p = resp.value p := by
  cases p <;> first | rfl | simp [Property.emptyValue] at h

/-- An empty element of a property that has a value for it sets that. -/
theorem value_read_nil_of_some {p : Property} {v : PropertyValue τ} (h : p.emptyValue parseHttpDate = some v)
    (resp : RawResponse τ) : (p.read parseHttpDate .nil resp).value p = v := by
  cases p <;> first | exact Option.some.inj h | simp [Property.emptyValue] at h

/-- A property that does not ignore an empty element is overwritten by every element. -/
theorem value_read_of_some {p : Property} {v : PropertyValue τ} (h : p.emptyValue parseHttpDate = some v)
    (content : XmlForest) (resp resp' : RawResponse τ) :
    (p.read parseHttpDate content resp).value p = (p.read parseHttpDate content resp').value p := by
  cases p <;> first | (cases h; done) | rfl

/-- A property is read whatever the href is. -/
@[simp] theorem read_href (p : Property) (content : XmlForest) (resp : RawResponse τ) (href : Line) :
    p.read parseHttpDate content { resp with href := href } =
      { p.read parseHttpDate content resp with href := href } := by
  cases p <;> simp only [Property.read, Property.store] <;> split <;> rfl

/-- The href is none of the values. -/
@[simp] theorem value_href (p : Property) (resp : RawResponse τ) (href : Line) :
    ({ resp with href := href } : RawResponse τ).value p = resp.value p := by
  cases p <;> rfl

/-! ## The elements of a response -/

/-- One element of a property, under a propstat with status 200 or another one. -/
structure PropElement where
  property : Property
  found : Bool
  /-- What is between the tags; `none` for a self-closed element. -/
  content : Option XmlForest
  deriving DecidableEq

/-- A property element, as the parser stores it. -/
def PropElement.apply (o : PropElement) (resp : RawResponse τ) : RawResponse τ :=
  match o.content with
  | some content => o.property.read parseHttpDate content resp
  | none => resp

/-- The elements one after the other. -/
def storeAll (os : List PropElement) (resp : RawResponse τ) : RawResponse τ :=
  os.foldl (fun r o => o.apply parseHttpDate r) resp

/-- The property elements among the children of a `prop` element. -/
def propElements (found : Bool) : XmlForest → List PropElement
  | .nil => []
  | .element n sub rest =>
    ((Property.ofTag (tagLocalName n)).map fun p => ⟨p, found, some sub⟩).toList ++ propElements found rest
  | .empty n rest =>
    ((Property.ofTag (tagLocalName n)).map fun p => ⟨p, found, none⟩).toList ++ propElements found rest
  | .text _ rest | .other rest => propElements found rest

/-- The property elements among the children of a `propstat` element. -/
def propstatElements (found : Bool) : XmlForest → List PropElement
  | .nil => []
  | .element n sub rest =>
    (if tagLocalName n = "prop" then propElements found sub else []) ++ propstatElements found rest
  | .empty _ rest | .text _ rest | .other rest => propstatElements found rest

/-- The text of the `status` element. -/
def statusText : XmlForest → Line
  | .nil => []
  | .element n sub rest => if tagLocalName n = "status" then sub.ownText else statusText rest
  | .empty _ rest | .text _ rest | .other rest => statusText rest

/-- The status is 200: the code is the second word of the status line. -/
def isFound (propstat : XmlForest) : Bool := ((statusText propstat).splitOn ' ')[1]? = some "200".toList

/-- The property elements of a response, in document order. -/
def responseElements : XmlForest → List PropElement
  | .nil => []
  | .element n sub rest =>
    (if tagLocalName n = "propstat" then propstatElements (isFound sub) sub else []) ++ responseElements rest
  | .empty _ rest | .text _ rest | .other rest => responseElements rest

/-- No element stores nothing. -/
@[simp] theorem storeAll_nil (resp : RawResponse τ) : storeAll parseHttpDate [] resp = resp := rfl

/-- The first element is stored first. -/
@[simp] theorem storeAll_cons (o : PropElement) (os : List PropElement) (resp : RawResponse τ) :
    storeAll parseHttpDate (o :: os) resp = storeAll parseHttpDate os (o.apply parseHttpDate resp) := rfl

/-- Two runs of elements are stored one after the other. -/
theorem storeAll_append (os os' : List PropElement) (resp : RawResponse τ) :
    storeAll parseHttpDate (os ++ os') resp = storeAll parseHttpDate os' (storeAll parseHttpDate os resp) :=
  List.foldl_append

/-! ## Where the properties are -/

/-- Nothing `read_propstat` looks for is in the forest. -/
def Inert (f : XmlForest) : Prop :=
  ∀ n ∈ f.elementNames, Property.ofTag (tagLocalName n) = none ∧ tagLocalName n ≠ "propstat"

/-- The children of a `prop` element: a property may hold anything, but one that is read up to its end tag
does not hold another element of its name. -/
def IsProp : XmlForest → Prop
  | .nil => True
  | .element n sub rest =>
    (match Property.ofTag (tagLocalName n) with
      | some p => p = .resourcetype ∨ p = .shareTypes → Without (tagLocalName n) sub
      | none => tagLocalName n ≠ "propstat" ∧ Inert sub) ∧ IsProp rest
  | .empty _ rest | .text _ rest | .other rest => IsProp rest

/-- The children of a `propstat` element: the properties are in its `prop` elements. -/
def IsPropstat : XmlForest → Prop
  | .nil => True
  | .element n sub rest =>
    (if tagLocalName n = "prop" then IsProp sub else Inert (.element n sub .nil)) ∧ IsPropstat rest
  | .empty _ rest | .text _ rest | .other rest => IsPropstat rest

/-- The children of a `response` element: propstats are there and nowhere else. -/
def IsResponse : XmlForest → Prop
  | .nil => True
  | .element n sub rest =>
    (if tagLocalName n = "propstat" then IsPropstat sub else tagLocalName n = "href" ∨ Without "propstat" sub) ∧
      IsResponse rest
  | .empty _ rest | .text _ rest | .other rest => IsResponse rest

/-! ## Reading them -/

/-- The reader of `resourcetype` finds a collection among all names up to its end tag. -/
theorem readHasCollection_events {f : XmlForest} (hf : Without "resourcetype" f) (found : Bool) (es : Events) :
    readHasCollection found (f.events ++ es) =
      readHasCollection (found || f.tagNames.any (tagLocalName · = "collection")) es := by
  induction f generalizing found es with
  | nil => simp [events, tagNames]
  | element n sub rest ihSub ihRest =>
    have hsub : Without "resourcetype" sub := fun m hm => hf m (by simp [elementNames, hm])
    have hrest : Without "resourcetype" rest := fun m hm => hf m (by simp [elementNames, hm])
    have hn : tagLocalName n ≠ "resourcetype" := hf n (by simp [elementNames])
    simp only [events, List.cons_append, List.append_assoc, readHasCollection, tagNames]
    rw [ihSub hsub, readHasCollection, if_neg hn, ihRest hrest]
    congr 1
    by_cases hc : tagLocalName n = "collection" <;> simp [hc, Bool.or_assoc]
  | empty n rest ih =>
    simp only [events, List.cons_append, readHasCollection, tagNames]
    rw [ih hf]
    congr 1
    by_cases hc : tagLocalName n = "collection" <;> simp [hc]
  | text t rest ih | other rest ih =>
    simp only [events, List.cons_append, readHasCollection, tagNames]
    exact ih hf found es

/-- The reader of a list of children reads up to its end tag. -/
theorem readHasChildren_events {endTag : String} {f : XmlForest} (hf : Without endTag f) (found : Bool)
    (es : Events) :
    readHasChildren endTag found (f.events ++ es) = readHasChildren endTag
    (found || !f.tagNames.isEmpty) es := by
  induction f generalizing found es with
  | nil => simp [events, tagNames]
  | element n sub rest ihSub ihRest =>
    have hsub : Without endTag sub := fun m hm => hf m (by simp [elementNames, hm])
    have hrest : Without endTag rest := fun m hm => hf m (by simp [elementNames, hm])
    have hn : tagLocalName n ≠ endTag := hf n (by simp [elementNames])
    simp only [events, List.cons_append, List.append_assoc, readHasChildren, tagNames]
    rw [ihSub hsub, readHasChildren, if_neg hn, ihRest hrest]
    simp
  | empty n rest ih =>
    simp only [events, List.cons_append, readHasChildren, tagNames]
    rw [ih hf]
    simp
  | text t rest ih | other rest ih =>
    simp only [events, List.cons_append, readHasChildren, tagNames]
    exact ih hf found es

/-- An element of a known property is read as its content. -/
theorem readProperty_element {p : Property} {n : String} (hn : Property.ofTag (tagLocalName n) = some p)
    {sub : XmlForest} (hsub : p = .resourcetype ∨ p = .shareTypes → Without (tagLocalName n) sub)
    (resp : RawResponse τ) (es : Events) :
    readProperty parseHttpDate p resp (sub.events ++ .stop n :: es) =
      .ok (p.read parseHttpDate sub resp, es) := by
  unfold readProperty
  split
  · have hname := eq_of_ofTag_resourcetype hn
    have hsub' := hsub (.inl rfl)
    rw [hname] at hsub'
    rw [readHasCollection_events hsub', readHasCollection, if_pos hname]
    simp [Except.map, Property.read]
  · have hname := eq_of_ofTag_shareTypes hn
    have hsub' := hsub (.inr rfl)
    rw [hname] at hsub'
    rw [readHasChildren_events hsub', readHasChildren, if_pos hname]
    simp [Except.map, Property.read]
  · rw [readText_element]
    cases p <;> first | rfl | contradiction

/-- Elements that are no properties are skipped. -/
theorem readPropstat_inert {f : XmlForest} (hf : Inert f) (resp : RawResponse τ) (es : Events) :
    readPropstat parseHttpDate resp (f.events ++ es) = readPropstat parseHttpDate resp es := by
  induction f generalizing es with
  | nil => rfl
  | element n sub rest ihSub ihRest =>
    have hsub : Inert sub := fun m hm => hf m (by simp [elementNames, hm])
    have hrest : Inert rest := fun m hm => hf m (by simp [elementNames, hm])
    obtain ⟨hprop, hn⟩ := hf n (by simp [elementNames])
    simp only [events, List.cons_append, List.append_assoc]
    rw [readPropstat_start_none parseHttpDate _ hprop, ihSub hsub, readPropstat_stop parseHttpDate _ hn]
    exact ihRest hrest es
  | empty n rest ih | text t rest ih | other rest ih =>
    simp only [events, List.cons_append, readPropstat]
    exact ih hf es

theorem readPropstat_isProp {f : XmlForest} (hf : IsProp f) (found : Bool) (resp : RawResponse τ)
    (es : Events) :
    readPropstat parseHttpDate resp (f.events ++ es) =
      readPropstat parseHttpDate (storeAll parseHttpDate (propElements found f) resp) es := by
  induction f generalizing resp es with
  | nil => rfl
  | element n sub rest ihSub ihRest =>
    obtain ⟨hsub, hrest⟩ := hf
    simp only [events, List.cons_append, List.append_assoc, propElements]
    cases hp : Property.ofTag (tagLocalName n) with
    | none =>
      -- an unknown element holds no property, and its end tag is not the propstat's
      rw [hp] at hsub
      rw [readPropstat_start_none parseHttpDate _ hp, readPropstat_inert parseHttpDate hsub.2,
        readPropstat_stop parseHttpDate _ hsub.1]
      simpa using ihRest hrest resp es
    | some p =>
      -- a known one is read, and stored
      rw [hp] at hsub
      rw [readPropstat_start parseHttpDate hp (readProperty_element parseHttpDate hp hsub resp _)]
      simpa [PropElement.apply] using ihRest hrest (p.read parseHttpDate sub resp) es
  | empty n rest ih =>
    simp only [events, List.cons_append, readPropstat, propElements]
    cases hp : Property.ofTag (tagLocalName n) with
    -- an empty element is stored when it is a property
    | none => simpa using ih hf resp es
    | some p => simpa [PropElement.apply] using ih hf resp es
  | text t rest ih | other rest ih =>
    simp only [events, List.cons_append, readPropstat, propElements]
    exact ih hf resp es

/-- The elements of a propstat are stored in order, those of each prop among them. -/
theorem readPropstat_isPropstat {f : XmlForest} (hf : IsPropstat f) (found : Bool) (resp : RawResponse τ)
    (es : Events) :
    readPropstat parseHttpDate resp (f.events ++ es) =
      readPropstat parseHttpDate (storeAll parseHttpDate (propstatElements found f) resp) es := by
  induction f generalizing resp es with
  | nil => rfl
  | element n sub rest ihSub ihRest =>
    obtain ⟨hsub, hrest⟩ := hf
    simp only [events, List.cons_append, List.append_assoc, propstatElements]
    by_cases hn : tagLocalName n = "prop"
    · have hnone : Property.ofTag (tagLocalName n) = none := by rw [hn]; rfl
      have hps : tagLocalName n ≠ "propstat" := by rw [hn]; decide
      rw [if_pos hn] at hsub ⊢
      rw [readPropstat_start_none parseHttpDate _ hnone, readPropstat_isProp parseHttpDate hsub found,
        readPropstat_stop parseHttpDate _ hps, storeAll_append]
      exact ihRest hrest _ es
    · rw [if_neg hn] at hsub ⊢
      have hinert := readPropstat_inert parseHttpDate hsub resp (rest.events ++ es)
      simp only [events, List.cons_append, List.append_assoc, List.nil_append] at hinert
      rw [hinert, List.nil_append]
      exact ihRest hrest resp es
  | empty n rest ih | text t rest ih | other rest ih =>
    simp only [events, List.cons_append, readPropstat, propstatElements]
    exact ih hf resp es

/-- Without a propstat only the href changes. -/
theorem readResponse_without {f : XmlForest} (hf : Without "propstat" f) {depth : Nat} (hd : depth ≠ 0)
    (resp : RawResponse τ) :
    ∃ href, ∀ es, readResponse parseHttpDate depth resp (f.events ++ es) =
      readResponse parseHttpDate depth { resp with href := href } es := by
  induction f generalizing depth resp with
  | nil => exact ⟨resp.href, fun es => rfl⟩
  | element n sub rest ihSub ihRest =>
    have hsub : Without "propstat" sub := fun m hm => hf m (by simp [elementNames, hm])
    have hrest : Without "propstat" rest := fun m hm => hf m (by simp [elementNames, hm])
    have hp : tagLocalName n ≠ "propstat" := hf n (by simp [elementNames])
    simp only [events, List.cons_append, List.append_assoc]
    -- an href replaces the response's, and so does the href of a response inside
    by_cases hh : tagLocalName n = "href"
    · obtain ⟨href, hok⟩ := ihRest hrest hd { resp with href := sub.ownText }
      refine ⟨href, fun es => ?_⟩
      rw [readResponse_href parseHttpDate hh (readText_element _ _ _)]
      exact hok es
    by_cases hr : tagLocalName n = "response"
    · -- a response inside another one is read one level deeper
      obtain ⟨href₁, hok₁⟩ := ihSub hsub (Nat.succ_ne_zero depth) resp
      obtain ⟨href₂, hok₂⟩ := ihRest hrest hd { resp with href := href₁ }
      refine ⟨href₂, fun es => ?_⟩
      rw [readResponse_response parseHttpDate _ hr, hok₁, readResponse, if_neg (by simpa using hr),
        if_neg (by simpa using hd)]
      exact hok₂ es
    · -- any other element is read through
      obtain ⟨href₁, hok₁⟩ := ihSub hsub hd resp
      obtain ⟨href₂, hok₂⟩ := ihRest hrest hd { resp with href := href₁ }
      refine ⟨href₂, fun es => ?_⟩
      rw [readResponse_other parseHttpDate _ hr hh hp, hok₁, readResponse, if_pos hr]
      exact hok₂ es
  | empty n rest ih | text t rest ih | other rest ih =>
    obtain ⟨href, hok⟩ := ih hf hd resp
    refine ⟨href, fun es => ?_⟩
    simp only [events, List.cons_append, readResponse]
    exact hok es

/-- Storing leaves the href alone. -/
theorem storeAll_href (os : List PropElement) (resp : RawResponse τ) (href : Line) :
    storeAll parseHttpDate os { resp with href := href } =
    { storeAll parseHttpDate os resp with href := href } := by
  induction os generalizing resp with
  | nil => rfl
  | cons o os ih =>
    have happly : o.apply parseHttpDate { resp with href := href } =
        { o.apply parseHttpDate resp with href := href } := by
      cases hc : o.content <;> simp [PropElement.apply, hc]
    rw [storeAll_cons, storeAll_cons, happly, ih]

/-- Reading a response is storing its property elements in order. -/
theorem readResponse_isResponse {f : XmlForest} (hf : IsResponse f) {depth : Nat} (hd : depth ≠ 0)
    (resp : RawResponse τ) :
    ∃ href, ∀ es, readResponse parseHttpDate depth resp (f.events ++ es) =
      readResponse parseHttpDate depth
        { storeAll parseHttpDate (responseElements f) resp with href := href } es := by
  induction f generalizing resp with
  | nil => exact ⟨resp.href, fun es => rfl⟩
  | element n sub rest ihSub ihRest =>
    obtain ⟨hsub, hrest⟩ := hf
    simp only [events, List.cons_append, List.append_assoc, responseElements]
    by_cases hp : tagLocalName n = "propstat"
    · -- a propstat: its elements are stored, then the rest is read
      rw [if_pos hp] at hsub ⊢
      obtain ⟨href, hok⟩ := ihRest hrest
        (storeAll parseHttpDate (propstatElements (isFound sub) sub) resp)
      refine ⟨href, fun es => ?_⟩
      have hstat : ∀ es', readPropstat parseHttpDate resp (sub.events ++ .stop n :: es') =
        .ok (_, es') := fun es' => by
        rw [readPropstat_isPropstat parseHttpDate hsub (isFound sub), readPropstat, if_pos hp]
      rw [readResponse_propstat parseHttpDate hp (hstat _), hok, storeAll_append]
    · rw [if_neg hp] at hsub ⊢
      -- an href, or an element without a propstat: only the href may change
      have hone : ∃ href, ∀ es,
        readResponse parseHttpDate depth resp (.start n :: (sub.events ++ .stop n :: es)) =
          readResponse parseHttpDate depth { resp with href := href } es := by
        rcases hsub with hh | hsub
        · exact ⟨sub.ownText, fun es => readResponse_href parseHttpDate hh (readText_element _ _ _)⟩
        · have helement : Without "propstat" (.element n sub .nil) := by
            intro m hm
            simp only [elementNames, List.append_nil, List.mem_cons] at hm
            rcases hm with rfl | hm
            · exact hp
            · exact hsub m hm
          simpa [events] using readResponse_without parseHttpDate helement hd resp
      obtain ⟨href₁, hok₁⟩ := hone
      obtain ⟨href₂, hok₂⟩ := ihRest hrest { resp with href := href₁ }
      refine ⟨href₂, fun es => ?_⟩
      rw [hok₁, hok₂, List.nil_append, storeAll_href]
  | empty n rest ih | text t rest ih | other rest ih =>
    obtain ⟨href, hok⟩ := ih hf resp
    refine ⟨href, fun es => ?_⟩
    simp only [events, List.cons_append, readResponse, responseElements]
    exact hok es

/-! ## The last element counts -/

/-- The last element of a property that has an end tag. -/
def lastWritten (p : Property) (os : List PropElement) : Option PropElement :=
  (os.filter fun o => o.property = p && o.content.isSome).getLast?

/-- The record of the elements under a propstat with status 200. -/
def foundValues (os : List PropElement) : RawResponse τ := storeAll parseHttpDate (os.filter (·.found)) {}

/-- An element of one property leaves the other properties alone. -/
theorem value_apply_ne {p : Property} {o : PropElement} (h : o.property ≠ p) (resp : RawResponse τ) :
    (o.apply parseHttpDate resp).value p = resp.value p := by
  unfold PropElement.apply
  split
  · exact value_read_ne parseHttpDate (Ne.symm h) _ resp
  · rfl

/-- An empty or self-closed element leaves a property that ignores it. -/
theorem value_apply_ignored {p : Property} (hp : p.emptyValue parseHttpDate = none) {o : PropElement}
    (ho : o.content.getD .nil = .nil) (resp : RawResponse τ) :
    (o.apply parseHttpDate resp).value p = resp.value p := by
  by_cases h : o.property = p
  · unfold PropElement.apply
    split
    · rename_i content hc
      rw [hc, Option.getD_some] at ho
      rw [ho, h]
      exact value_read_nil_of_none parseHttpDate hp resp
    · rfl
  · exact value_apply_ne parseHttpDate h resp

/-- What an element stores in its property does not depend on the other properties. -/
theorem value_apply_congr {p : Property} {resp resp' : RawResponse τ} (h : resp.value p = resp'.value p)
    (o : PropElement) : (o.apply parseHttpDate resp).value p = (o.apply parseHttpDate resp').value p := by
  by_cases ho : o.property = p
  · unfold PropElement.apply
    split
    · rw [ho]
      exact value_read_congr parseHttpDate h _
    · exact h
  · rw [value_apply_ne parseHttpDate ho, value_apply_ne parseHttpDate ho, h]

/-- What is not found does not touch a property that ignores empty elements. -/
theorem value_storeAll_ignored {p : Property} (hp : p.emptyValue parseHttpDate = none) {os : List PropElement}
    (hos : ∀ o ∈ os, o.found = false → o.content.getD .nil = .nil) {resp resp' : RawResponse τ}
    (h : resp.value p = resp'.value p) :
    (storeAll parseHttpDate os resp).value p =
    (storeAll parseHttpDate (os.filter (·.found)) resp').value p := by
  induction os generalizing resp resp' with
  | nil => exact h
  | cons o os ih =>
    have htail : ∀ o ∈ os, o.found = false → o.content.getD .nil = .nil :=
      fun o ho => hos o (List.mem_cons_of_mem _ ho)
    cases hf : o.found with
    | true =>
      rw [List.filter_cons_of_pos (by simp [hf])]
      exact ih htail (value_apply_congr parseHttpDate h o)
    | false =>
      rw [List.filter_cons_of_neg (by simp [hf])]
      have hignored := value_apply_ignored parseHttpDate hp (hos o List.mem_cons_self hf) resp
      exact ih htail (hignored.trans h)

/-- The last element that writes a property, after one more element. -/
theorem lastWritten_concat (p : Property) (os : List PropElement) (o : PropElement) :
    lastWritten p (os ++ [o]) = if o.property = p ∧ o.content.isSome then some o else lastWritten p os := by
  unfold lastWritten
  split <;> simp_all [List.filter_append]

/-- A property that empty elements overwrite is what its last element with an end tag says. -/
theorem value_storeAll {p : Property} {v : PropertyValue τ} (hp : p.emptyValue parseHttpDate = some v)
    (os : List PropElement) (resp : RawResponse τ) :
    (storeAll parseHttpDate os resp).value p =
      ((lastWritten p os).bind (·.content)).elim (resp.value p) fun c =>
        (p.read parseHttpDate c {}).value p := by
  induction os using List.reverseRecOn with
  | nil => rfl
  | append_singleton os o ih =>
    rw [storeAll_append, storeAll_cons, storeAll_nil, lastWritten_concat]
    by_cases ho : o.property = p
    · cases hc : o.content with
      | none => simpa [PropElement.apply, hc] using ih
      | some content => simpa [PropElement.apply, hc, ho] using value_read_of_some parseHttpDate hp content _ {}
    · rw [value_apply_ne parseHttpDate ho, ih]
      simp [ho]

/-- The last element to write a property is the last of the found ones, when it is found. -/
theorem lastWritten_filter_found {p : Property} {os : List PropElement} {o : PropElement}
    (h : lastWritten p os = some o) (ho : o.found = true) : lastWritten p (os.filter (·.found)) = some o := by
  obtain ⟨init, hinit⟩ := List.getLast?_eq_some_iff.mp h
  rw [lastWritten, List.filter_comm, hinit, List.filter_append]
  simp [ho]

/-- What nothing writes, no found element writes. -/
theorem lastWritten_filter_none {p : Property} {os : List PropElement} (h : lastWritten p os = none) :
    lastWritten p (os.filter (·.found)) = none := by
  rw [lastWritten, List.getLast?_eq_none_iff] at h ⊢
  rw [List.filter_comm, h, List.filter_nil]

/-- One property keeps its found value if and only if no empty element that was not found comes last, or its
value is the one of an empty element. -/
theorem value_storeAll_eq_found_iff {os : List PropElement}
    (hos : ∀ o ∈ os, o.found = false → o.content.getD .nil = .nil) (p : Property) :
    (storeAll parseHttpDate os {}).value p = (foundValues parseHttpDate os).value p ↔
      ∀ v, p.emptyValue parseHttpDate = some v → ∀ o, lastWritten p os = some o → o.found = false →
        (foundValues parseHttpDate os).value p = v := by
  cases hp : p.emptyValue parseHttpDate with
  -- nothing is stored for an empty element, so the found ones are all that counts
  | none => simp [foundValues, value_storeAll_ignored parseHttpDate hp hos rfl]
  | some v =>
    cases hlast : lastWritten p os with
    | none =>
      -- no element writes the property
      rw [foundValues, value_storeAll parseHttpDate hp, value_storeAll parseHttpDate hp, hlast,
        lastWritten_filter_none hlast]
      simp
    | some o =>
      have hmem : o ∈ os ∧ o.property = p ∧ o.content.isSome = true := by
        simpa using List.mem_of_getLast? hlast
      cases hfound : o.found with
      | true =>
        -- a found element is the last of the found ones too
        rw [foundValues, value_storeAll parseHttpDate hp, value_storeAll parseHttpDate hp, hlast,
          lastWritten_filter_found hlast hfound]
        simp [hfound]
      | false =>
        -- the last element is an empty one
        have hcontent : o.content = some .nil := by
          obtain ⟨content, hc⟩ := Option.isSome_iff_exists.mp hmem.2.2
          have hnil := hos o hmem.1 hfound
          rw [hc, Option.getD_some] at hnil
          rw [hc, hnil]
        have hv := value_read_nil_of_some parseHttpDate hp {}
        rw [value_storeAll parseHttpDate hp, hlast, Option.bind_some, hcontent, Option.elim_some, hv]
        -- the empty element wrote the empty value over what the found ones said
        constructor
        · rintro h v' ⟨⟩ o' - -
          exact h.symm
        · exact fun h => (h v rfl o rfl hfound).symm

/-- A response is read to its end tag, as its elements in order. -/
theorem exists_readResponse {f : XmlForest} (hf : IsResponse f) {n : String}
    (hn : tagLocalName n = "response") :
    ∃ resp : RawResponse τ,
      (∀ es, readResponse parseHttpDate 1 {} (f.events ++ .stop n :: es) = .ok (resp, es)) ∧
      ∀ p, resp.value p = (storeAll parseHttpDate (responseElements f) {}).value p := by
  obtain ⟨href, hok⟩ := readResponse_isResponse parseHttpDate hf one_ne_zero {}
  refine ⟨{ storeAll parseHttpDate (responseElements f) {} with href := href }, fun es => ?_, fun p => ?_⟩
  · rw [hok, readResponse, if_neg (by simpa using hn), if_pos (Nat.sub_self 1)]
  · exact value_href p _ href

/-- The response gives every property its value under the 200 propstat, or the default without one, if and
only if for no property that empty elements overwrite the last element with an end tag is one that was not
found, the value being another one than an empty element's. -/
theorem found_values_kept_iff {f : XmlForest} (hf : IsResponse f)
    (hempty : ∀ o ∈ responseElements f, o.found = false → o.content.getD .nil = .nil) {n : String}
    (hn : tagLocalName n = "response") :
    ∃ resp : RawResponse τ,
      (∀ es, readResponse parseHttpDate 1 {} (f.events ++ .stop n :: es) = .ok (resp, es)) ∧
      ((∀ p, resp.value p = (foundValues parseHttpDate (responseElements f)).value p) ↔
        ∀ p v, p.emptyValue parseHttpDate = some v →
          ∀ o, lastWritten p (responseElements f) = some o → o.found = false →
            (foundValues parseHttpDate (responseElements f)).value p = v) := by
  obtain ⟨resp, hok, hvalue⟩ := exists_readResponse parseHttpDate hf hn
  refine ⟨resp, hok, ?_⟩
  simp only [hvalue]
  exact forall_congr' fun p => value_storeAll_eq_found_iff parseHttpDate hempty p

/-- A propstat with a status line and its properties. -/
def propstatOf (status : String) (props rest : XmlForest) : XmlForest :=
  .element "d:propstat"
    (.element "d:prop" props (.element "d:status" (.text status.toList .nil) .nil)) rest

/-- A size that was found, before or after the empty element of one that was not. -/
def sizeTwice (foundFirst : Bool) : XmlForest :=
  let found := propstatOf "HTTP/1.1 200 OK" (.element "oc:size" (.text ['5'] .nil) .nil)
  let missing := propstatOf "HTTP/1.1 404 Not Found" (.element "oc:size" .nil .nil)
  if foundFirst then found (missing .nil) else missing (found .nil)

/-- The response of the example has the form of one. -/
theorem isResponse_sizeTwice (foundFirst : Bool) : IsResponse (sizeTwice foundFirst) := by
  have hstat : tagLocalName "d:propstat" = "propstat" := by decide
  have hprop : tagLocalName "d:prop" = "prop" := by decide
  have hstatus : tagLocalName "d:status" = "status" := by decide
  have hsize : tagLocalName "oc:size" = "size" := by decide
  cases foundFirst <;>
    simp [sizeTwice, propstatOf, IsResponse, IsPropstat, IsProp, Inert, Property.ofTag,
      elementNames, hstat, hprop, hstatus, hsize]

/-- With the found propstat last, the values of the found one are kept. -/
theorem found_values_kept_missing_first :
    ∃ resp : RawResponse Nat,
      (∀ es, readResponse (fun _ => none) 1 {} ((sizeTwice false).events ++ .stop "d:response" :: es) =
        .ok (resp, es)) ∧
      ∀ p, resp.value p = (foundValues (fun _ => none) (responseElements (sizeTwice false))).value p := by
  have helements : responseElements (sizeTwice false) =
      [⟨.size, false, some .nil⟩, ⟨.size, true, some (.text ['5'] .nil)⟩] := by decide
  obtain ⟨resp, hok, hiff⟩ := found_values_kept_iff (fun _ => (none : Option Nat)) (isResponse_sizeTwice false)
    (by simp [helements]) (n := "d:response") (by decide)
  refine ⟨resp, hok, hiff.mpr fun p v _ o ho hfound => ?_⟩
  rw [helements] at ho
  cases p <;> simp [lastWritten] at ho
  simp [← ho] at hfound

/-- After the empty element the size is 0, before it the one that was found. -/
theorem missing_size_erases_found :
    ∃ resp resp' : RawResponse Nat,
      (∀ es, readResponse (fun _ => none) 1 {} ((sizeTwice true).events ++ .stop "d:response" :: es) =
        .ok (resp, es)) ∧
      (∀ es, readResponse (fun _ => none) 1 {} ((sizeTwice false).events ++ .stop "d:response" :: es) =
        .ok (resp', es)) ∧
      resp.value .size = .number 0 ∧ resp'.value .size = .number 5 := by
  obtain ⟨resp, hok, hvalue⟩ := exists_readResponse (fun _ => (none : Option Nat)) (isResponse_sizeTwice true)
    (n := "d:response") (by decide)
  obtain ⟨resp', hok', hvalue'⟩ :=
    exists_readResponse (fun _ => (none : Option Nat)) (isResponse_sizeTwice false)
    (n := "d:response") (by decide)
  refine ⟨resp, resp', hok, hok', (hvalue .size).trans ?_, (hvalue' .size).trans ?_⟩
  · have helements : responseElements (sizeTwice true) =
        [⟨.size, true, some (.text ['5'] .nil)⟩, ⟨.size, false, some .nil⟩] := by decide
    rw [helements]
    rfl
  · have helements : responseElements (sizeTwice false) =
        [⟨.size, false, some .nil⟩, ⟨.size, true, some (.text ['5'] .nil)⟩] := by decide
    rw [helements]
    rfl

end Ncrs
