import Ncrs.Native.Propfind

/-!
# The reader of a listing on whole elements and on cut ones

What the loops of `ResponseReader` do with the events of a forest, and that what a loop has returned before
the end of its input does not depend on what comes after.

## Key results

- `readText_element`: `read_text` returns the element's own text and stands behind its end tag.
- `readPropstat_element`, `readResponse_events`: the loops for a propstat and for a response stand behind
  their own end tag, whatever the properties contain.
- `readResponse_append`: a response that was read was read from its own events.
-/

namespace Ncrs

open XmlForest

variable {τ : Type} (parseHttpDate : Line → Option τ)

/-! ## Whole elements -/

/-- Skipping reads over whole content. -/
theorem skipElement_events {depth : Nat} (hd : depth ≠ 0) (f : XmlForest) (es : Events) :
    skipElement depth (f.events ++ es) = skipElement depth es := by
  induction f generalizing depth es with
  | nil => rfl
  | element n sub rest ihSub ihRest =>
    simp only [events, List.cons_append, List.append_assoc, skipElement_start]
    rw [ihSub (Nat.succ_ne_zero depth), skipElement_stop, if_neg (by simpa using hd)]
    exact ihRest hd es
  | empty n rest ih | text t rest ih | other rest ih => exact ih hd es

/-- The text of whole content is its own text. -/
theorem readText_events (text : Line) (f : XmlForest) (es : Events) :
    readText text (f.events ++ es) = readText (text ++ f.ownText) es := by
  induction f generalizing text es with
  | nil => simp [events, ownText]
  | element n sub rest ihSub ihRest =>
    have hskip : skipElement 1 (sub.events ++ .stop n :: (rest.events ++ es)) = .ok (rest.events ++ es) := by
      rw [skipElement_events one_ne_zero]
      rfl
    simp only [events, List.cons_append, List.append_assoc]
    rw [readText_start hskip]
    exact ihRest text es
  | empty n rest ih | other rest ih =>
    simp only [events, List.cons_append, readText]
    exact ih text es
  | text t rest ih =>
    simp only [events, List.cons_append, readText, ownText]
    rw [ih, List.append_assoc]

/-- The text of an element is read up to its end tag. -/
theorem readText_element (f : XmlForest) (n : String) (es : Events) :
    readText [] (f.events ++ .stop n :: es) = .ok (f.ownText, es) := by
  rw [readText_events, readText, List.nil_append]

/-! ## What comes after -/

/-- More events behind do not change what is skipped. -/
theorem skipElement_append {depth : Nat} {es rest : Events} (h : skipElement depth es = .ok rest)
    (hne : rest ≠ []) (more : Events) : skipElement depth (es ++ more) = .ok (rest ++ more) := by
  induction es generalizing depth with
  | nil =>
    cases h
    exact absurd rfl hne
  | cons e es ih =>
    cases e with
    | stop n =>
      rw [List.cons_append, skipElement_stop]
      rw [skipElement_stop] at h
      by_cases hd : depth - 1 = 0
      · rw [if_pos hd] at h ⊢
        cases h
        rfl
      · rw [if_neg hd] at h ⊢
        exact ih h
    | failed e => cases h
    | start n | empty n | text t | other => exact ih h

/-- More events behind do not change the text that was read. -/
theorem readText_append {text t : Line} {es rest : Events} (h : readText text es = .ok (t, rest))
    (hne : rest ≠ []) (more : Events) : readText text (es ++ more) = .ok (t, rest ++ more) := by
  fun_induction readText text es with
  | case1 => simp_all
  | case6 text n es rest' hskip hle ih =>
    have hne' : rest' ≠ [] := by
      rintro rfl
      simp_all [readText]
    rw [List.cons_append, readText_start (skipElement_append hskip hne' more)]
    exact ih h
  | _ => grind [readText]

/-- More events behind do not change whether a collection was found. -/
theorem readHasCollection_append {found b : Bool} {es rest : Events}
    (h : readHasCollection found es = .ok (b, rest)) (more : Events) :
    readHasCollection found (es ++ more) = .ok (b, rest ++ more) := by
  induction es generalizing found with
  | nil => cases h
  | cons e es ih =>
    cases e with
    | stop n =>
      rw [List.cons_append, readHasCollection_stop]
      rw [readHasCollection_stop] at h
      by_cases hn : tagLocalName n = "resourcetype"
      · rw [if_pos hn] at h ⊢
        cases h
        rfl
      · rw [if_neg hn] at h ⊢
        exact ih h
    | failed e => cases h
    | start n | empty n | text t | other => exact ih h

/-- More events behind do not change whether a child was found. -/
theorem readHasChildren_append {endTag : String} {found b : Bool} {es rest : Events}
    (h : readHasChildren endTag found es = .ok (b, rest)) (hne : rest ≠ []) (more : Events) :
    readHasChildren endTag found (es ++ more) = .ok (b, rest ++ more) := by
  induction es generalizing found with
  | nil =>
    cases h
    exact absurd rfl hne
  | cons e es ih =>
    cases e with
    | stop n =>
      rw [List.cons_append, readHasChildren_stop]
      rw [readHasChildren_stop] at h
      by_cases hn : tagLocalName n = endTag
      · rw [if_pos hn] at h ⊢
        cases h
        rfl
      · rw [if_neg hn] at h ⊢
        exact ih h
    | failed e => cases h
    | start n | empty n | text t | other => exact ih h

/-- More events behind do not change a property that was read. -/
theorem readProperty_append {p : Property} {resp resp' : RawResponse τ} {es rest : Events}
    (h : readProperty parseHttpDate p resp es = .ok (resp', rest)) (hne : rest ≠ []) (more : Events) :
    readProperty parseHttpDate p resp (es ++ more) = .ok (resp', rest ++ more) := by
  unfold readProperty at h ⊢
  split at h
  · obtain ⟨⟨found, es'⟩, hr, heq⟩ := exists_of_map_eq_ok h
    cases heq
    simp [readHasCollection_append hr more, Except.map]
  · obtain ⟨⟨found, es'⟩, hr, heq⟩ := exists_of_map_eq_ok h
    cases heq
    simp [readHasChildren_append hr hne more, Except.map]
  · obtain ⟨⟨text, es'⟩, hr, heq⟩ := exists_of_map_eq_ok h
    cases heq
    simp [readText_append hr hne more, Except.map]

/-- `read_propstat` does not return at the end of its input, so what it has returned stays. -/
theorem readPropstat_append {resp resp' : RawResponse τ} {es rest : Events}
    (h : readPropstat parseHttpDate resp es = .ok (resp', rest)) (more : Events) :
    readPropstat parseHttpDate resp (es ++ more) = .ok (resp', rest ++ more) := by
  fun_induction readPropstat parseHttpDate resp es with
  | case4 resp n es p hn resp₁ rest₁ hprop hle ih =>
    have hne : rest₁ ≠ [] := by
      rintro rfl
      simp [readPropstat] at h
    rw [List.cons_append, readPropstat_start parseHttpDate hn
      (readProperty_append parseHttpDate hprop hne more)]
    exact ih h
  | _ => grind [readPropstat]

theorem readResponse_append {depth : Nat} {resp resp' : RawResponse τ} {es rest : Events}
    (h : readResponse parseHttpDate depth resp es = .ok (resp', rest)) (more : Events) :
    readResponse parseHttpDate depth resp (es ++ more) = .ok (resp', rest ++ more) := by
  fun_induction readResponse parseHttpDate depth resp es with
  | case4 depth resp n es hn text rest₁ htext hle ih =>
    -- each case reads its first event the same way, whatever follows
    have hne : rest₁ ≠ [] := by
      rintro rfl
      simp [readResponse] at h
    rw [List.cons_append, readResponse_href parseHttpDate hn (readText_append htext hne more)]
    exact ih h
  | case6 depth resp n es hn resp₁ rest₁ hprop hle ih =>
    rw [List.cons_append, readResponse_propstat parseHttpDate hn (readPropstat_append parseHttpDate hprop more)]
    exact ih h
  | case2 depth resp n es hn ih =>
    rw [List.cons_append, readResponse_response parseHttpDate _ hn]
    exact ih h
  | case7 depth resp n es hr hh hp ih =>
    rw [List.cons_append, readResponse_other parseHttpDate _ hr hh hp]
    exact ih h
  | case8 depth resp n es hn ih =>
    rw [List.cons_append, readResponse, if_pos hn]
    exact ih h
  | case9 depth resp n es hn hdepth =>
    cases h
    rw [List.cons_append, readResponse, if_neg hn, if_pos hdepth]
  | case10 depth resp n es hn hdepth ih =>
    rw [List.cons_append, readResponse, if_neg hn, if_neg hdepth]
    exact ih h
  | case12 depth resp n es ih | case13 depth resp t es ih | case14 depth resp es ih =>
    rw [List.cons_append, readResponse]
    exact ih h
  -- the other cases are errors
  | _ => cases h

/-! ## Cut elements -/

/-- A loop that goes on to an end tag returns at the first one. -/
theorem exists_scan {scan : Bool → Events → Except String (Bool × Events)} {endTag : String}
    (hend : ∀ found m es, tagLocalName m = endTag → scan found (.stop m :: es) = .ok (found, es))
    (hstep : ∀ found (e : XmlEvent String), e.isRead → (∀ m, e = .stop m → tagLocalName m ≠ endTag) →
      ∃ found', ∀ es, scan found (e :: es) = scan found' es)
    {w : Events} (hread : ∀ e ∈ w, e.isRead) {n : String} (hn : .stop n ∈ w) (hlocal : tagLocalName n = endTag)
    (found : Bool) : ∃ b v, v <:+ w ∧ ∀ es, scan found (w ++ es) = .ok (b, v ++ es) := by
  induction w generalizing found with
  | nil => simp at hn
  | cons e w ih =>
    by_cases hstop : ∃ m, e = .stop m ∧ tagLocalName m = endTag
    · obtain ⟨m, rfl, hm⟩ := hstop
      exact ⟨found, w, List.suffix_cons _ _, fun es => hend found m (w ++ es) hm⟩
    · have hmem : .stop n ∈ w := by
        rcases List.mem_cons.mp hn with rfl | h
        · exact absurd ⟨n, rfl, hlocal⟩ hstop
        · exact h
      obtain ⟨found', hskip⟩ := hstep found e (hread e List.mem_cons_self) fun m he hm => hstop ⟨m, he, hm⟩
      obtain ⟨b, v, hv, hok⟩ := ih (fun e he => hread e (List.mem_cons_of_mem _ he)) hmem found'
      exact ⟨b, v, hv.trans (List.suffix_cons _ _), fun es => (hskip (w ++ es)).trans (hok es)⟩

/-- The reader of a collection stops at the end tag. -/
theorem exists_readHasCollection {w : Events} (hread : ∀ e ∈ w, e.isRead) {n : String} (hn : .stop n ∈ w)
    (hlocal : tagLocalName n = "resourcetype") (found : Bool) :
    ∃ b v, v <:+ w ∧ ∀ es, readHasCollection found (w ++ es) = .ok (b, v ++ es) := by
  refine exists_scan ?_ ?_ hread hn hlocal found
  · intro found m es hm
    rw [readHasCollection_stop, if_pos hm]
  · intro found e he hm
    cases e with
    | stop m => exact ⟨found, fun es => if_neg (hm m rfl)⟩
    | failed e => simp [XmlEvent.isRead] at he
    | _ => exact ⟨_, fun es => rfl⟩

/-- The reader of the children stops at the end tag. -/
theorem exists_readHasChildren {endTag : String} {w : Events} (hread : ∀ e ∈ w, e.isRead) {n : String}
    (hn : .stop n ∈ w) (hlocal : tagLocalName n = endTag) (found : Bool) :
    ∃ b v, v <:+ w ∧ ∀ es, readHasChildren endTag found (w ++ es) = .ok (b, v ++ es) := by
  refine exists_scan ?_ ?_ hread hn hlocal found
  · intro found m es hm
    rw [readHasChildren_stop, if_pos hm]
  · intro found e he hm
    cases e with
    | stop m => exact ⟨found, fun es => if_neg (hm m rfl)⟩
    | failed e => simp [XmlEvent.isRead] at he
    | _ => exact ⟨_, fun es => rfl⟩

/-- Only `resourcetype` is the property of that name. -/
theorem eq_of_ofTag_resourcetype {tag : String} (h : Property.ofTag tag = some .resourcetype) :
    tag = "resourcetype" := by
  unfold Property.ofTag at h
  split at h <;> simp_all

/-- Only `share-types` is the property of that name. -/
theorem eq_of_ofTag_shareTypes {tag : String} (h : Property.ofTag tag = some .shareTypes) :
    tag = "share-types" := by
  unfold Property.ofTag at h
  split at h <;> simp_all

/-- Storing a property leaves the href alone. -/
@[simp] theorem href_store (p : Property) (t : Line) (resp : RawResponse τ) :
    (p.store parseHttpDate t resp).href = resp.href := by
  cases p <;> simp only [Property.store] <;> split <;> rfl

/-- A property whose end tag is there is read, its own events and perhaps not all of them. -/
theorem exists_readProperty {p : Property} {sub : XmlForest} {n : String} {w : Events}
    (hn : Property.ofTag (tagLocalName n) = some p) (resp : RawResponse τ) :
    ∃ resp' : RawResponse τ, ∃ v, resp'.href = resp.href ∧ v <:+ sub.events ++ .stop n :: w ∧
      ∀ es, readProperty parseHttpDate p resp (sub.events ++ .stop n :: w ++ es) = .ok (resp', v ++ es) := by
  -- the element's events are readable, and its end tag is among them
  have hread : ∀ e ∈ (sub.events ++ [XmlEvent.stop n] : Events), e.isRead := by
    intro e he
    rcases List.mem_append.mp he with he | he
    · exact isRead_of_mem_events he
    · rw [List.mem_singleton.mp he]
      rfl
  have hstop : XmlEvent.stop n ∈ (sub.events ++ [XmlEvent.stop n] : Events) := by simp
  have hsplit : ∀ es : Events,
    sub.events ++ .stop n :: w ++ es = (sub.events ++ [XmlEvent.stop n]) ++ (w ++ es) := by simp
  by_cases hr : p = .resourcetype
  · -- the resource type looks for a collection
    subst hr
    obtain ⟨b, v, hv, hok⟩ := exists_readHasCollection hread hstop (eq_of_ofTag_resourcetype hn) false
    refine ⟨{ resp with isCollection := b }, v ++ w, rfl, ?_, fun es => ?_⟩
    · obtain ⟨u, hu⟩ := hv
      exact ⟨u, by rw [← List.append_assoc, hu]; simp⟩
    · rw [hsplit, readProperty, hok]
      simp [Except.map]
  by_cases hs : p = .shareTypes
  · -- the share types look for any child
    subst hs
    obtain ⟨b, v, hv, hok⟩ := exists_readHasChildren hread hstop (eq_of_ofTag_shareTypes hn) false
    refine ⟨{ resp with isShared := b }, v ++ w, rfl, ?_, fun es => ?_⟩
    · obtain ⟨u, hu⟩ := hv
      exact ⟨u, by rw [← List.append_assoc, hu]; simp⟩
    · rw [hsplit, readProperty, hok]
      simp [Except.map]
  · -- every other property is its text
    refine ⟨p.store parseHttpDate sub.ownText resp, w, by simp, ?_, fun es => ?_⟩
    · exact ⟨sub.events ++ [XmlEvent.stop n], by simp⟩
    · rw [List.append_assoc, List.cons_append]
      unfold readProperty
      split
      · exact absurd rfl hr
      · exact absurd rfl hs
      · rw [readText_element]
        rfl

/-- Elements with an end tag whose local name is `name` are not in the forest. -/
def Without (name : String) (f : XmlForest) : Prop := ∀ n ∈ f.elementNames, tagLocalName n ≠ name

/-- `read_propstat` stands behind the end tag of its propstat and has kept the href, also when a property
that ends early leaves it among the end tags of the elements it is in. -/
theorem exists_readPropstat {f : XmlForest} (hf : Without "propstat" f) {w : Events} (hw : w <:+ f.events)
    (resp : RawResponse τ) {n : String} (hn : tagLocalName n = "propstat") :
    ∃ resp' : RawResponse τ, resp'.href = resp.href ∧
      ∀ es, readPropstat parseHttpDate resp (w ++ .stop n :: es) = .ok (resp', es) := by
  induction hlen : w.length using Nat.strong_induction_on generalizing w resp with
  | _ len ih =>
    subst hlen
    cases w with
    | nil => exact ⟨resp, rfl, fun es => by rw [List.nil_append, readPropstat, if_pos hn]⟩
    | cons e w =>
      have hw' : w <:+ f.events := (List.suffix_cons e w).trans hw
      have hnext := ih w.length (by simp) hw' resp rfl
      have hmem : e ∈ f.events := hw.mem List.mem_cons_self
      cases e with
      | start m =>
        cases hp : Property.ofTag (tagLocalName m) with
        | none => simpa [readPropstat_start_none parseHttpDate _ hp] using hnext
        | some p =>
          obtain ⟨sub, w', rfl⟩ := exists_of_start_suffix hw
          obtain ⟨resp₁, v, hhref, hv, hok⟩ := exists_readProperty parseHttpDate (w := w') hp resp
          have hlen : v.length ≤ (sub.events ++ .stop m :: w' : Events).length := hv.length_le
          obtain ⟨resp₂, hhref₂, hok₂⟩ :=
            ih v.length (by simpa using Nat.lt_succ_of_le hlen) (hv.trans hw') resp₁ rfl
          refine ⟨resp₂, hhref₂.trans hhref, fun es => ?_⟩
          rw [List.cons_append, readPropstat_start parseHttpDate hp (hok _)]
          exact hok₂ es
      | stop m =>
        have hm : tagLocalName m ≠ "propstat" := hf m (stop_mem_events.mp hmem)
        simpa [readPropstat_stop parseHttpDate _ hm] using hnext
      | empty m | text t | other => simpa [readPropstat] using hnext
      | failed e => simpa [XmlEvent.isRead] using isRead_of_mem_events hmem

/-! ## A whole response -/

/-- The hrefs of a response, those in its propstats apart. -/
def hrefs : XmlForest → List Line
  | .nil => []
  | .element n sub rest =>
    (if tagLocalName n = "href" then [sub.ownText] else if tagLocalName n = "propstat" then []
      else hrefs sub) ++
      hrefs rest
  | .empty _ rest | .text _ rest | .other rest => hrefs rest

/-- No propstat is inside another one. -/
def PropstatsApart : XmlForest → Prop
  | .nil => True
  | .element n sub rest =>
    (if tagLocalName n = "propstat" then Without "propstat" sub else PropstatsApart sub) ∧ PropstatsApart rest
  | .empty _ rest | .text _ rest | .other rest => PropstatsApart rest

/-- The last of two lists is the last of the second, if it has one. -/
theorem getLastD_append {α : Type} (l l' : List α) (a : α) :
    (l ++ l').getLastD a = l'.getLastD (l.getLastD a) := by
  induction l generalizing a with
  | nil => rfl
  | cons b l ih => simp only [List.cons_append, List.getLastD_cons, ih]

/-- `read_response` stays at its depth over whole elements; of several hrefs the last one is kept. -/
theorem readResponse_events {f : XmlForest} (hf : PropstatsApart f) {depth : Nat} (hd : depth ≠ 0)
    (resp : RawResponse τ) :
    ∃ resp' : RawResponse τ, resp'.href = (hrefs f).getLastD resp.href ∧ ∀ es,
      readResponse parseHttpDate depth resp (f.events ++ es) = readResponse parseHttpDate depth resp' es := by
  induction f generalizing depth resp with
  | nil => exact ⟨resp, rfl, fun es => rfl⟩
  | element n sub rest ihSub ihRest =>
    obtain ⟨hsub, hrest⟩ := hf
    simp only [events, List.cons_append, List.append_assoc, hrefs, getLastD_append]
    -- a propstat is read, and changes no href
    by_cases hp : tagLocalName n = "propstat"
    · rw [if_pos hp] at hsub
      obtain ⟨resp₁, hhref, hok⟩ := exists_readPropstat parseHttpDate hsub List.suffix_rfl resp hp
      obtain ⟨resp₂, hhref₂, hok₂⟩ := ihRest hrest hd resp₁
      refine ⟨resp₂, by simpa [hp, hhref] using hhref₂, fun es => ?_⟩
      rw [readResponse_propstat parseHttpDate hp (hok _)]
      exact hok₂ es
    rw [if_neg hp] at hsub
    -- an href replaces the one before
    by_cases hh : tagLocalName n = "href"
    · obtain ⟨resp₂, hhref₂, hok₂⟩ := ihRest hrest hd { resp with href := sub.ownText }
      refine ⟨resp₂, by simpa [hh] using hhref₂, fun es => ?_⟩
      rw [readResponse_href parseHttpDate hh (readText_element _ _ _)]
      exact hok₂ es
    by_cases hr : tagLocalName n = "response"
    · -- a response inside counts one deeper, and back at its end
      obtain ⟨resp₁, hhref, hok⟩ := ihSub hsub (Nat.succ_ne_zero depth) resp
      obtain ⟨resp₂, hhref₂, hok₂⟩ := ihRest hrest hd resp₁
      refine ⟨resp₂, by simpa [hp, hh, hhref] using hhref₂, fun es => ?_⟩
      rw [readResponse_response parseHttpDate _ hr, hok, readResponse, if_neg (by simpa using hr),
        if_neg (by simpa using hd)]
      exact hok₂ es
    · -- any other element is read through
      obtain ⟨resp₁, hhref, hok⟩ := ihSub hsub hd resp
      obtain ⟨resp₂, hhref₂, hok₂⟩ := ihRest hrest hd resp₁
      refine ⟨resp₂, by simpa [hp, hh, hhref] using hhref₂, fun es => ?_⟩
      rw [readResponse_other parseHttpDate _ hr hh hp, hok, readResponse, if_pos hr]
      exact hok₂ es
  | empty n rest ih | text t rest ih | other rest ih =>
    obtain ⟨resp', hhref, hok⟩ := ih hf hd resp
    refine ⟨resp', hhref, fun es => ?_⟩
    simp only [events, List.cons_append, readResponse]
    exact hok es

/-- A response is read to its end tag, with its last href. -/
theorem readResponse_element {f : XmlForest} (hf : PropstatsApart f) {n : String}
    (hn : tagLocalName n = "response") :
    ∃ resp : RawResponse τ, resp.href = (hrefs f).getLastD [] ∧
      ∀ es, readResponse parseHttpDate 1 {} (f.events ++ .stop n :: es) = .ok (resp, es) := by
  obtain ⟨resp, hhref, hok⟩ := readResponse_events parseHttpDate hf one_ne_zero {}
  refine ⟨resp, hhref, fun es => ?_⟩
  rw [hok, readResponse, if_neg (by simpa using hn), if_pos (Nat.sub_self 1)]

/-- A response whose end tag is missing is an error. -/
theorem readResponse_cut {f : XmlForest} (hf : PropstatsApart f) {n : String}
    (hn : tagLocalName n = "response") {p : Events} (hp : p <+: f.events) :
    ∃ e, readResponse parseHttpDate 1 {} p = .error e := by
  cases h : readResponse parseHttpDate 1 {} p with
  | error e => exact ⟨e, rfl⟩
  | ok r =>
    -- a result would not change with the rest of the events, and the rest would be left over
    obtain ⟨q, hq⟩ := hp
    obtain ⟨resp, -, hok⟩ := readResponse_element parseHttpDate hf hn
    have happ := readResponse_append parseHttpDate h (q ++ [XmlEvent.stop n])
    rw [← List.append_assoc, hq, hok []] at happ
    simp at happ

end Ncrs
