import Mathlib.Data.List.Infix
import Mathlib.Data.List.Count

/-!
# Pull events of XML

What a pull reader of XML delivers, one event after the other, and the element trees behind the events.
A reader that works on events sees a suffix of the events of a forest: some elements whole, and the ends of
the elements it is in.

## Key results

- `exists_of_start_suffix`: in a suffix of a forest's events a start tag is followed by its element.
- `stops_le_starts`: in a prefix of a forest's events no more elements of a name end than start.
- `stops_eq_starts`: in the events of a whole forest as many end as start.
-/

/-- An event of a pull reader; the end of the input is the end of the list. Comments, declarations and the
like are `other`. -/
inductive XmlEvent (ε : Type) where
  | start (name : String)
  | stop (name : String)
  | empty (name : String)
  /-- Text between tags, with its escapes resolved where they can be. -/
  | text (content : Except ε (List Char))
  | other
  | failed (error : ε)

/-- A sequence of elements, texts and other nodes. -/
inductive XmlForest where
  | nil
  | element (name : String) (sub rest : XmlForest)
  | empty (name : String) (rest : XmlForest)
  | text (content : List Char) (rest : XmlForest)
  | other (rest : XmlForest)
  deriving DecidableEq

namespace XmlEvent

variable {ε : Type}

/-- The reader could read the event. -/
def isRead : XmlEvent ε → Bool
  | text (.error _) | failed _ => false
  | _ => true

/-- The start tag of a named element. -/
def isStart (named : String → Bool) : XmlEvent ε → Bool
  | start n => named n
  | _ => false

/-- The end tag of a named element. -/
def isStop (named : String → Bool) : XmlEvent ε → Bool
  | stop n => named n
  | _ => false

/-- How many elements whose name is `named` start in the events. -/
def starts (named : String → Bool) (es : List (XmlEvent ε)) : Nat := es.countP (·.isStart named)

/-- How many elements whose name is `named` end in the events. -/
def stops (named : String → Bool) (es : List (XmlEvent ε)) : Nat := es.countP (·.isStop named)

variable (named : String → Bool) (n : String) (es fs : List (XmlEvent ε))

/-- Nothing starts nothing. -/
@[simp] theorem starts_nil : starts named ([] : List (XmlEvent ε)) = 0 := rfl

/-- Nothing stops nothing. -/
@[simp] theorem stops_nil : stops named ([] : List (XmlEvent ε)) = 0 := rfl

/-- What starts in two runs of events. -/
@[simp] theorem starts_append : starts named (es ++ fs) = starts named es + starts named fs :=
  List.countP_append

/-- What stops in two runs of events. -/
@[simp] theorem stops_append : stops named (es ++ fs) = stops named es + stops named fs :=
  List.countP_append

/-- A start tag counts when it is a named one's. -/
@[simp] theorem starts_start :
    starts named (start n :: es) = starts named es + if named n then 1 else 0 :=
  List.countP_cons

/-- An end tag counts when it is a named one's. -/
@[simp] theorem stops_stop : stops named (stop n :: es) = stops named es + if named n then 1 else 0 :=
  List.countP_cons

/-- An end tag starts nothing. -/
@[simp] theorem starts_stop : starts named (stop n :: es) = starts named es :=
  List.countP_cons_of_neg Bool.false_ne_true

/-- A start tag stops nothing. -/
@[simp] theorem stops_start : stops named (start n :: es) = stops named es :=
  List.countP_cons_of_neg Bool.false_ne_true

/-- An empty element starts nothing. -/
@[simp] theorem starts_empty : starts named (empty n :: es) = starts named es :=
  List.countP_cons_of_neg Bool.false_ne_true

/-- An empty element stops nothing. -/
@[simp] theorem stops_empty : stops named (empty n :: es) = stops named es :=
  List.countP_cons_of_neg Bool.false_ne_true

/-- Text starts nothing. -/
@[simp] theorem starts_text (t : Except ε (List Char)) : starts named (text t :: es) = starts named es :=
  List.countP_cons_of_neg Bool.false_ne_true

/-- Text stops nothing. -/
@[simp] theorem stops_text (t : Except ε (List Char)) : stops named (text t :: es) = stops named es :=
  List.countP_cons_of_neg Bool.false_ne_true

/-- Other events start nothing. -/
@[simp] theorem starts_other : starts named (other :: es) = starts named es :=
  List.countP_cons_of_neg Bool.false_ne_true

/-- Other events stop nothing. -/
@[simp] theorem stops_other : stops named (other :: es) = stops named es :=
  List.countP_cons_of_neg Bool.false_ne_true

variable {named es}

/-- Without a named start tag nothing starts. -/
theorem starts_eq_zero (h : ∀ n, start n ∈ es → named n = false) : starts named es = 0 := by
  refine List.countP_eq_zero.mpr fun e he => ?_
  cases e with
  | start n => exact ne_true_of_eq_false (h n he)
  | _ => exact Bool.false_ne_true

/-- Without a named end tag nothing stops. -/
theorem stops_eq_zero (h : ∀ n, stop n ∈ es → named n = false) : stops named es = 0 := by
  refine List.countP_eq_zero.mpr fun e he => ?_
  cases e with
  | stop n => exact ne_true_of_eq_false (h n he)
  | _ => exact Bool.false_ne_true

end XmlEvent

namespace XmlForest

variable {ε : Type}

/-- The events of the nodes, in document order. -/
def events : XmlForest → List (XmlEvent ε)
  | nil => []
  | element n sub rest => .start n :: (sub.events ++ .stop n :: rest.events)
  | empty n rest => .empty n :: rest.events
  | text t rest => .text (.ok t) :: rest.events
  | other rest => .other :: rest.events

/-- The text directly in the forest, not in its elements. -/
def ownText : XmlForest → List Char
  | nil => []
  | element _ _ rest | empty _ rest | other rest => rest.ownText
  | text t rest => t ++ rest.ownText

/-- The names of the elements at every depth that have an end tag. -/
def elementNames : XmlForest → List String
  | nil => []
  | element n sub rest => n :: (sub.elementNames ++ rest.elementNames)
  | empty _ rest | text _ rest | other rest => rest.elementNames

/-- The names of the elements at every depth. -/
def tagNames : XmlForest → List String
  | nil => []
  | element n sub rest => n :: (sub.tagNames ++ rest.tagNames)
  | empty n rest => n :: rest.tagNames
  | text _ rest | other rest => rest.tagNames

variable (n : String) (t : List Char) (sub rest : XmlForest)

/-- An element's events are its tags and what is between them. -/
theorem events_element :
    ((element n sub rest).events : List (XmlEvent ε)) =
    .start n :: (sub.events ++ .stop n :: rest.events) := rfl

/-- An empty element is one event. -/
theorem events_empty : ((empty n rest).events : List (XmlEvent ε)) = .empty n :: rest.events := rfl

/-- Text is one event. -/
theorem events_text : ((text t rest).events : List (XmlEvent ε)) = .text (.ok t) :: rest.events := rfl

/-- Anything else is one event. -/
theorem events_other : ((other rest).events : List (XmlEvent ε)) = .other :: rest.events := rfl

/-- The names of an element and of what is in it. -/
theorem elementNames_element :
    (element n sub rest).elementNames = n :: (sub.elementNames ++ rest.elementNames) := rfl

variable {n}

/-- A forest's events can be read. -/
theorem isRead_of_mem_events {f : XmlForest} {e : XmlEvent ε} (h : e ∈ f.events) : e.isRead := by
  induction f with
  | nil => exact absurd h List.not_mem_nil
  | element n sub rest ihSub ihRest =>
    rcases List.mem_cons.mp h with rfl | h
    · rfl
    · rcases List.mem_append.mp h with h | h
      · exact ihSub h
      · rcases List.mem_cons.mp h with rfl | h
        · rfl
        · exact ihRest h
  | empty n rest ih | text t rest ih | other rest ih =>
    rcases List.mem_cons.mp h with rfl | h
    · rfl
    · exact ih h

/-- The end tags are those of the elements. -/
@[simp] theorem stop_mem_events {f : XmlForest} :
    (XmlEvent.stop n : XmlEvent ε) ∈ f.events ↔ n ∈ f.elementNames := by
  induction f with
  | nil => exact iff_of_false List.not_mem_nil List.not_mem_nil
  | element m sub rest ihSub ihRest =>
    simp only [events_element, elementNames_element, List.mem_cons, List.mem_append, ihSub, ihRest,
      XmlEvent.stop.injEq, reduceCtorEq, false_or]
    tauto
  | empty m rest ih | text t rest ih | other rest ih =>
    exact Iff.trans ⟨fun h => (List.mem_cons.mp h).resolve_left nofun, List.mem_cons_of_mem _⟩ ih

/-- The start tags are those of the elements. -/
@[simp] theorem start_mem_events {f : XmlForest} :
    (XmlEvent.start n : XmlEvent ε) ∈ f.events ↔ n ∈ f.elementNames := by
  induction f with
  | nil => exact iff_of_false List.not_mem_nil List.not_mem_nil
  | element m sub rest ihSub ihRest => simp [events_element, elementNames_element, ihSub, ihRest]
  | empty m rest ih | text t rest ih | other rest ih =>
    exact Iff.trans ⟨fun h => (List.mem_cons.mp h).resolve_left nofun, List.mem_cons_of_mem _⟩ ih

/-- In a suffix of a forest's events a start tag is followed by its element. -/
theorem exists_of_start_suffix {f : XmlForest} {n : String} {w : List (XmlEvent ε)}
    (h : .start n :: w <:+ f.events) :
    ∃ (sub : XmlForest) (w' : List (XmlEvent ε)), w = sub.events ++ .stop n :: w' := by
  induction f generalizing w with
  | nil => cases List.suffix_nil.mp h
  | element m sub rest ihSub ihRest =>
    rcases List.suffix_cons_iff.mp h with h | h
    · obtain ⟨hn, hw⟩ := List.cons_eq_cons.mp h
      cases hn
      exact ⟨sub, rest.events, hw⟩
    · -- the tag is after the element, or inside it
      rcases List.suffix_or_suffix_of_suffix h (List.suffix_append sub.events _) with h' | ⟨pre, hpre⟩
      · rw [List.suffix_cons_iff] at h'
        rcases h' with h' | h'
        · simp at h'
        · exact ihRest h'
      · obtain ⟨z, hz⟩ := h
        cases pre with
        | nil => simp at hpre
        | cons e pre =>
          simp only [List.cons_append, List.cons.injEq] at hpre
          obtain ⟨rfl, rfl⟩ := hpre
          have hsub : .start n :: pre <:+ (sub.events : List (XmlEvent ε)) := by
            have hz' : (z ++ .start n :: pre) ++ .stop m :: rest.events = sub.events ++ .stop m ::
              rest.events := by
              simpa using hz
            exact ⟨z, List.append_cancel_right hz'⟩
          obtain ⟨sub', w', rfl⟩ := ihSub hsub
          exact ⟨sub', w' ++ .stop m :: rest.events, by simp⟩
  | empty m rest ih | text t rest ih | other rest ih =>
    rcases List.suffix_cons_iff.mp h with h | h
    · simp at h
    · exact ih h

open XmlEvent (starts stops)

/-- As many elements of a name end in a forest as start. -/
theorem stops_eq_starts (named : String → Bool) (f : XmlForest) :
    stops named (f.events : List (XmlEvent ε)) = starts named (f.events : List (XmlEvent ε)) := by
  induction f with
  | nil => rfl
  | element n sub rest ihSub ihRest =>
    simp [events_element, ihSub, ihRest]
    omega
  | empty n rest ih | text t rest ih | other rest ih => simp [events_empty, events_text, events_other, ih]

/-- A prefix of an element and what follows it ends before the element, inside it, or behind it. -/
theorem prefix_element {n : String} {sub rest : XmlForest} {p : List (XmlEvent ε)}
    (h : p <+: (element n sub rest).events) :
    p = [] ∨ (∃ q, p = .start n :: q ∧ q <+: sub.events) ∨
      ∃ q, p = .start n :: (sub.events ++ .stop n :: q) ∧ q <+: rest.events := by
  obtain hp | ⟨q, hp, hq⟩ := List.prefix_cons_iff.mp h
  · exact .inl hp
  · rcases List.prefix_or_prefix_of_prefix hq (List.prefix_append _ _) with hsub | ⟨r, rfl⟩
    · exact .inr (.inl ⟨q, hp, hsub⟩)
    · rw [List.prefix_append_right_inj] at hq
      obtain rfl | ⟨r, rfl, hr⟩ := List.prefix_cons_iff.mp hq
      · exact .inr (.inl ⟨sub.events, by simpa using hp, List.prefix_rfl⟩)
      · exact .inr (.inr ⟨r, hp, hr⟩)

/-- In a prefix of a forest's events no more elements of a name end than start. -/
theorem stops_le_starts (named : String → Bool) {f : XmlForest} {p : List (XmlEvent ε)} (h : p <+: f.events) :
    stops named p ≤ starts named p := by
  induction f generalizing p with
  | nil => simp [List.prefix_nil.mp h]
  | element n sub rest ihSub ihRest =>
    rcases prefix_element h with rfl | ⟨q, rfl, hq⟩ | ⟨q, rfl, hq⟩
    · simp
    · have := ihSub hq
      simp
      omega
    · have := ihRest hq
      simp [stops_eq_starts named sub]
      omega
  | empty n rest ih | text t rest ih | other rest ih =>
    obtain rfl | ⟨q, rfl, hq⟩ := List.prefix_cons_iff.mp h
    · simp
    · simpa using ih hq

end XmlForest
