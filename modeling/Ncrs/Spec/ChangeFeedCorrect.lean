import Ncrs.Native.ChangeFeed

/-!
# Cursors of an earlier daemon

A read from a cursor of this generation delivers what was appended since, or answers `RESYNC`. A
cursor of an earlier one is told apart from that only by lying before the log's oldest record: one
that lies inside the new log or beyond it is served from there, and what was appended before is
lost without a word. Nothing is lost when nothing has been appended.

## Key results

- `ChangeFeed.Inv.step`: the log, the client's position and what it was given, over one step
- `ChangeFeed.old_cursors_are_answered`: when a cursor of an earlier daemon is answered right
-/

namespace Ncrs

namespace ChangeFeed

variable {s s' : ChangeFeed}

/-! ## Reading the log -/

/-- The log holds the last records of the history. -/
structure Retains (log : ChangeLog) (history : List FeedRecord) : Prop where
  base_le : log.base ≤ history.length
  entries : log.entries = history.drop log.base

theorem Retains.head_eq {log : ChangeLog} {history : List FeedRecord} (h : Retains log history) :
    log.head = history.length := by
  have hle := h.base_le
  rw [ChangeLog.head, h.entries, List.length_drop]
  omega

theorem Retains.append {log : ChangeLog} {history : List FeedRecord} (h : Retains log history)
    (records : List FeedRecord) (reader : Bool) : Retains (log.append records reader) (history ++ records) := by
  have hle := h.base_le
  unfold ChangeLog.append
  split
  · rename_i hempty
    rw [List.isEmpty_iff.mp hempty, List.append_nil]
    exact h
  · have hall : log.entries ++ records = (history ++ records).drop log.base := by
      rw [List.drop_append_of_le_length hle, h.entries]
    have hlen : (log.entries ++ records).length = (history ++ records).length - log.base := by
      rw [hall, List.length_drop]
    have hlong : log.base ≤ (history ++ records).length := by
      rw [List.length_append]
      omega
    -- the part that fits, from which a log without a reader drops everything
    have hfit : Retains
        { log with
          entries := (log.entries ++ records).drop ((log.entries ++ records).length - log.cap)
          base := log.base + ((log.entries ++ records).length - log.cap) } (history ++ records) := by
      constructor
      · show log.base + ((log.entries ++ records).length - log.cap) ≤ _
        omega
      · show (log.entries ++ records).drop _ = _
        rw [hall, List.drop_drop]
    split
    · exact hfit
    · have hhead := hfit.head_eq
      constructor
      · exact Nat.le_of_eq hhead
      · show [] = (history ++ records).drop (ChangeLog.head _)
        rw [hhead, List.drop_length]

theorem Retains.read {log : ChangeLog} {history : List FeedRecord} (h : Retains log history) (c page : Nat) :
    (log.readSince c page).next ≤ history.length ∧
      ((log.readSince c page).resync = false → c ≤ history.length →
        (log.readSince c page).records = (history.drop c).take page ∧
          (log.readSince c page).next = c + ((history.drop c).take page).length) := by
  have hle := h.base_le
  have hhead := h.head_eq
  have hstart : Nat.min (Nat.max c log.base) log.head ≤ history.length := by
    rw [← hhead]
    exact Nat.min_le_right _ _
  have hbase : log.base ≤ Nat.min (Nat.max c log.base) log.head := by
    rw [hhead]
    exact Nat.le_min.mpr ⟨Nat.le_max_right _ _, hle⟩
  have hrecords : (log.readSince c page).records =
      (history.drop (Nat.min (Nat.max c log.base) log.head)).take page := by
    show (log.entries.drop _).take page = _
    rw [h.entries, List.drop_drop]
    congr 2
    omega
  have hnext : (log.readSince c page).next =
      Nat.min (Nat.max c log.base) log.head + (log.readSince c page).records.length := rfl
  constructor
  · rw [hnext, hrecords, List.length_take, List.length_drop]
    omega
  · intro hresync hc
    have hge : log.base ≤ c := Nat.le_of_not_lt (of_decide_eq_false hresync)
    have hclamp : Nat.min (Nat.max c log.base) log.head = c := by
      rw [hhead]
      show min (max c log.base) history.length = c
      omega
    rw [hclamp] at hrecords hnext
    rw [hnext, hrecords]
    exact ⟨rfl, rfl⟩

/-! ## The invariant -/

structure Inv (s : ChangeFeed) : Prop where
  log : Retains s.log s.history
  given : ∀ g n, s.held = some (g, n) → g ≤ s.generation
  -- a cursor of this generation is where the client's reads have come to
  held : ∀ n, s.held = some (s.generation, n) → n ≤ s.history.length ∧
    (∀ f, s.follow = some f → n = f.pos) ∧ ∀ since, s.conn = some (.watching since) → since = n
  conn : ∀ since, s.conn = some (.watching since) → since ≤ s.history.length ∧
    ∀ f, s.follow = some f → since = f.pos
  followed : ∀ f, s.follow = some f → f.pos ≤ s.history.length ∧
    (f.headAt = 0 → f.told = false → f.delivered = s.history.take f.pos)

theorem Inv.start (cap : Nat) : (start cap).Inv :=
  ⟨⟨Nat.le_refl _, rfl⟩, nofun, nofun, nofun, nofun⟩

/-- A read from where a cursor has come to passes on the next records, or says `RESYNC`. -/
theorem Inv.read (h : s.Inv) {f : Follow} (hf : s.follow = some f) :
    (f.read (s.log.readSince f.pos eventsPage)).pos ≤ s.history.length ∧
      ((f.read (s.log.readSince f.pos eventsPage)).headAt = 0 →
        (f.read (s.log.readSince f.pos eventsPage)).told = false →
        (f.read (s.log.readSince f.pos eventsPage)).delivered =
          s.history.take (f.read (s.log.readSince f.pos eventsPage)).pos) ∧
      ((f.read (s.log.readSince f.pos eventsPage)).told = true ∨
        (f.read (s.log.readSince f.pos eventsPage)).pos = min (f.pos + eventsPage) s.history.length) := by
  obtain ⟨hpos, hdelivered⟩ := h.followed f hf
  obtain ⟨hle, hread⟩ := h.log.read f.pos eventsPage
  refine ⟨hle, fun h0 htold => ?_, ?_⟩
  · obtain ⟨htold, hresync⟩ := Bool.or_eq_false_iff.mp htold
    obtain ⟨hrecords, hnext⟩ := hread hresync hpos
    show f.delivered ++ (if (s.log.readSince f.pos eventsPage).resync then [] else _) = s.history.take _
    rw [hresync, if_neg (by decide), hrecords, hdelivered h0 htold,
      show (f.read (s.log.readSince f.pos eventsPage)).pos = _ from hnext, List.take_add,
      ← List.prefix_iff_eq_take.mp (List.take_prefix eventsPage (s.history.drop f.pos))]
  · cases hresync : (s.log.readSince f.pos eventsPage).resync with
    | true => exact .inl (Bool.or_eq_true_iff.mpr (.inr hresync))
    | false =>
      obtain ⟨-, hnext⟩ := hread hresync hpos
      refine .inr ?_
      show (s.log.readSince f.pos eventsPage).next = _
      rw [hnext, List.length_take, List.length_drop]
      omega

/-- The first read for a cursor, of this generation or an earlier one. -/
theorem Inv.present (h : s.Inv) {g c : Nat} (hheld : s.held = some (g, c)) {f : Follow}
    (hf : s.present (s.log.readSince c eventsPage) g = some f) :
    f.pos = (s.log.readSince c eventsPage).next ∧ f.pos ≤ s.history.length ∧
      (f.headAt = 0 → f.told = false → f.delivered = s.history.take f.pos) := by
  unfold ChangeFeed.present at hf
  split at hf
  · obtain rfl := Option.some.inj hf
    refine ⟨rfl, (h.log.read c eventsPage).1, fun h0 _ => ?_⟩
    -- nothing has been appended
    have hempty : s.history = [] := by
      rw [← List.length_eq_zero_iff, ← h.log.head_eq]
      exact h0
    have hrecords : (s.log.readSince c eventsPage).records = [] := by
      show (s.log.entries.drop _).take _ = []
      rw [h.log.entries, hempty, List.drop_nil, List.drop_nil, List.take_nil]
    show [] ++ (if (s.log.readSince c eventsPage).resync then [] else _) = _
    rw [hrecords, hempty, ite_self, List.take_nil, List.append_nil]
  · rename_i hge
    obtain ⟨f', hf', rfl⟩ := Option.map_eq_some_iff.mp hf
    obtain rfl : g = s.generation := Nat.le_antisymm (h.given g c hheld) (Nat.le_of_not_lt hge)
    obtain ⟨-, hpos, -⟩ := h.held c hheld
    obtain rfl := hpos f' hf'
    obtain ⟨hle, hdelivered, -⟩ := h.read hf'
    exact ⟨rfl, hle, hdelivered⟩

/-- A read that gives the client no line leaves a cursor of this generation where it is. -/
theorem Inv.next_eq (h : s.Inv) {c : Nat} (hc : c ≤ s.history.length)
    (hquiet : ¬ ((s.log.readSince c eventsPage).resync || !(s.log.readSince c
    eventsPage).records.isEmpty) = true) :
    (s.log.readSince c eventsPage).next = c := by
  rw [Bool.or_eq_true, not_or, Bool.not_eq_true, Bool.not_eq_true, Bool.not_eq_false',
    List.isEmpty_iff] at hquiet
  obtain ⟨hrecords, hnext⟩ := (h.log.read c eventsPage).2 hquiet.1 hc
  rw [hnext, ← hrecords, hquiet.2]
  rfl

theorem Inv.append (h : s.Inv) (records : List FeedRecord) (others : Bool) :
    Inv { s with
      log := s.log.append records (s.conn.isSome || others)
      history := s.history ++ records } := by
  have hgrow : ∀ n, n ≤ s.history.length → n ≤ (s.history ++ records).length := by
    intro n hn
    rw [List.length_append]
    omega
  refine ⟨h.log.append _ _, h.given, fun n hn => ?_, fun since hsince => ?_, fun f hf => ?_⟩
  · obtain ⟨hle, hrest⟩ := h.held n hn
    exact ⟨hgrow n hle, hrest⟩
  · obtain ⟨hle, hrest⟩ := h.conn since hsince
    exact ⟨hgrow since hle, hrest⟩
  · obtain ⟨hle, hdelivered⟩ := h.followed f hf
    refine ⟨hgrow _ hle, fun h0 htold => ?_⟩
    rw [hdelivered h0 htold, List.take_append_of_le_length hle]

/-- The verbs without a cursor start at the head. -/
theorem Inv.fromHead (h : s.Inv) {conn : FeedConn}
    (hconn : ∀ since, conn = .watching since → since = s.log.head) :
    Inv { s with
      conn := some conn
      held := some (s.generation, s.log.head)
      follow := none } := by
  have hhead := h.log.head_eq
  refine ⟨h.log, fun g n hn => ?_, fun n hn => ⟨?_, nofun, fun since hsince => ?_⟩,
    fun since hsince => ⟨?_, nofun⟩, nofun⟩
  · obtain ⟨rfl, -⟩ := Prod.mk.inj (Option.some.inj hn)
    exact Nat.le_refl _
  · obtain ⟨-, rfl⟩ := Prod.mk.inj (Option.some.inj hn)
    exact Nat.le_of_eq hhead
  · obtain ⟨-, rfl⟩ := Prod.mk.inj (Option.some.inj hn)
    exact hconn since (Option.some.inj hsince)
  · rw [hconn since (Option.some.inj hsince)]
    exact Nat.le_of_eq hhead

/-- A read for the client that ends at `next`, where its connection and a cursor it is given go on. -/
theorem Inv.answered (h : s.Inv) {next : Nat} {conn : FeedConn} {held : Option (Nat × Nat)}
    {follow : Option Follow} (hnext : next ≤ s.history.length)
    (hconn : ∀ since, conn = .watching since → since = next)
    (hheld : held = some (s.generation, next) ∨
      held = s.held ∧ ∀ n, s.held = some (s.generation, n) → n = next)
    (hfollow : ∀ f, follow = some f → f.pos = next ∧
      (f.headAt = 0 → f.told = false → f.delivered = s.history.take f.pos)) :
    Inv { s with conn := some conn, held := held, follow := follow } := by
  have hat : ∀ n, held = some (s.generation, n) → n = next := by
    intro n hn
    rcases hheld with rfl | ⟨rfl, hsame⟩
    · exact (Prod.mk.inj (Option.some.inj hn)).2.symm
    · exact hsame n hn
  refine ⟨h.log, fun g n hn => ?_, fun n hn => ⟨?_, fun f hf => ?_, fun since hsince => ?_⟩,
    fun since hsince => ⟨?_, fun f hf => ?_⟩, fun f hf => ⟨?_, (hfollow f hf).2⟩⟩
  · rcases hheld with rfl | ⟨rfl, -⟩
    · obtain ⟨rfl, -⟩ := Prod.mk.inj (Option.some.inj hn)
      exact Nat.le_refl _
    · exact h.given g n hn
  · rw [hat n hn]
    exact hnext
  · rw [hat n hn, (hfollow f hf).1]
  · rw [hat n hn, hconn since (Option.some.inj hsince)]
  · rw [hconn since (Option.some.inj hsince)]
    exact hnext
  · rw [hconn since (Option.some.inj hsince), (hfollow f hf).1]
  · rw [(hfollow f hf).1]
    exact hnext

theorem Inv.step (h : s.Inv) {e : ChangeFeedEvent} (hs : s.step e = some s') : s'.Inv := by
  cases e with
  | append records others => exact Option.some.inj hs ▸ h.append records others
  | restart cap =>
    obtain rfl := Option.some.inj hs
    refine ⟨⟨Nat.le_refl _, rfl⟩, fun g n hn => Nat.le_succ_of_le (h.given g n hn), fun n hn => ?_,
      nofun, nofun⟩
    exact absurd (h.given _ n hn) (Nat.not_succ_le_self _)
  | eventsHead =>
    simp only [ChangeFeed.step] at hs
    split at hs
    · cases hs
    · exact Option.some.inj hs ▸ h.fromHead nofun
  | watchHead =>
    simp only [ChangeFeed.step] at hs
    split at hs
    · cases hs
    · exact Option.some.inj hs ▸ h.fromHead fun since hsince => (FeedConn.watching.inj hsince).symm
  | events =>
    simp only [ChangeFeed.step] at hs
    split at hs
    · cases hs
    · cases hs
    · rename_i g c hheld _
      obtain rfl := Option.some.inj hs
      refine h.answered (h.log.read c eventsPage).1 nofun (.inl rfl) fun f hf => ?_
      obtain ⟨hpos, -, hdelivered⟩ := h.present hheld hf
      exact ⟨hpos, hdelivered⟩
  | watch =>
    simp only [ChangeFeed.step] at hs
    split at hs
    · cases hs
    · cases hs
    · rename_i g c hheld _
      obtain rfl := Option.some.inj hs
      refine h.answered (h.log.read c eventsPage).1 (fun since hsince => (FeedConn.watching.inj hsince).symm) ?_
        fun f hf => ?_
      · split
        · exact .inl rfl
        · rename_i hquiet
          refine .inr ⟨rfl, fun n hn => ?_⟩
          obtain ⟨-, rfl⟩ := Prod.mk.inj (Option.some.inj (hheld.symm.trans hn))
          exact (h.next_eq (h.held c hn).1 hquiet).symm
      · obtain ⟨hpos, -, hdelivered⟩ := h.present hheld hf
        exact ⟨hpos, hdelivered⟩
  | push =>
    simp only [ChangeFeed.step] at hs
    split at hs
    · rename_i since hconn
      obtain rfl := Option.some.inj hs
      obtain ⟨hsince, hat⟩ := h.conn since hconn
      refine h.answered (h.log.read since eventsPage).1
        (fun since hsince => (FeedConn.watching.inj hsince).symm) ?_
        fun f hf => ?_
      · split
        · exact .inl rfl
        · rename_i hquiet
          refine .inr ⟨rfl, fun n hn => ?_⟩
          rw [h.next_eq hsince hquiet]
          exact ((h.held n hn).2.2 since hconn).symm
      · obtain ⟨f', hf', rfl⟩ := Option.map_eq_some_iff.mp hf
        obtain rfl := hat f' hf'
        exact ⟨rfl, (h.read hf').2.1⟩
    · cases hs
  | disconnect =>
    obtain rfl := Option.some.inj hs
    exact ⟨h.log, h.given, fun n hn => ⟨(h.held n hn).1, (h.held n hn).2.1, nofun⟩, nofun, h.followed⟩

theorem Inv.steps {es : List ChangeFeedEvent} :
    ∀ {s s' : ChangeFeed}, s.Inv → s.steps es = some s' → s'.Inv := by
  induction es with
  | nil =>
    intro s s' h hs
    exact Option.some.inj hs ▸ h
  | cons e es ih =>
    intro s s' h hs
    obtain ⟨t, ht, hrest⟩ := Option.bind_eq_some_iff.mp hs
    exact ih (h.step ht) hrest

/-! ## Cursors of an earlier generation -/

/-- The client presents the cursor `c` of an earlier generation. -/
def Presents (s : ChangeFeed) (e : ChangeFeedEvent) (c : Nat) : Prop :=
  (e = .events ∨ e = .watch) ∧ ∃ g, s.held = some (g, c) ∧ g < s.generation

/-- Such a cursor lies before the log's oldest record, or nothing has been appended. -/
def Meets (s : ChangeFeed) (e : ChangeFeedEvent) : Prop :=
  ∀ c, s.Presents e c → c < s.log.base ∨ s.log.head = 0

def AllMeet (s : ChangeFeed) : List ChangeFeedEvent → Prop
  | [] => True
  | e :: es => s.Meets e ∧ match s.step e with
    | some s' => s'.AllMeet es
    | none => True

/-- The cursor of an earlier generation was answered `RESYNC` at first; or nothing had been appended
    by then, and what its reads have passed since was given to the client, unless it was told
    `RESYNC` for having fallen off the log. -/
def Answered (s : ChangeFeed) : Prop :=
  ∀ f, s.follow = some f → f.first = true ∨
    (f.headAt = 0 ∧ f.pos ≤ s.history.length ∧ (f.told = true ∨ f.delivered = s.history.take f.pos))

/-- What a step does to the cursor that is followed: a cursor of an earlier generation starts anew,
    a read goes on from where it was, and nothing else moves it. -/
theorem follow_cases (h : s.Inv) {e : ChangeFeedEvent} (hs : s.step e = some s') {f' : Follow}
    (hf' : s'.follow = some f') :
    (∃ c, s.Presents e c ∧ f' =
        Follow.read ⟨s.log.head, decide (c < s.log.base), false, 0, []⟩ (s.log.readSince c eventsPage)) ∨
      (∃ f, s.follow = some f ∧ f' = f.read (s.log.readSince f.pos eventsPage)) ∨
      ((∀ c, ¬ s.Presents e c) ∧ e ≠ .push ∧ e ≠ .events ∧ e ≠ .watch ∧ s.follow = some f') := by
  -- the first read of `EVENTS` and `WATCH`
  have hpresent : ∀ g c, s.held = some (g, c) → (e = .events ∨ e = .watch) →
      s.present (s.log.readSince c eventsPage) g = some f' →
      (∃ c, s.Presents e c ∧ f' =
          Follow.read ⟨s.log.head, decide (c < s.log.base), false, 0, []⟩ (s.log.readSince c eventsPage)) ∨
        (∃ f, s.follow = some f ∧ f' = f.read (s.log.readSince f.pos eventsPage)) := by
    intro g c hheld he hp
    unfold ChangeFeed.present at hp
    split at hp
    · rename_i hlt
      exact .inl ⟨c, ⟨he, g, hheld, hlt⟩, (Option.some.inj hp).symm⟩
    · rename_i hge
      obtain ⟨f, hf, rfl⟩ := Option.map_eq_some_iff.mp hp
      obtain rfl : g = s.generation := Nat.le_antisymm (h.given g c hheld) (Nat.le_of_not_lt hge)
      obtain rfl := (h.held c hheld).2.1 f hf
      exact .inr ⟨f, hf, rfl⟩
  have hother : (e ≠ .events ∧ e ≠ .watch) → ∀ c, ¬ s.Presents e c :=
    fun hne c hp => hp.1.elim hne.1 hne.2
  cases e with
  | append records others =>
    obtain rfl := Option.some.inj hs
    exact .inr (.inr ⟨hother ⟨nofun, nofun⟩, nofun, nofun, nofun, hf'⟩)
  | restart cap =>
    obtain rfl := Option.some.inj hs
    cases hf'
  | eventsHead =>
    simp only [ChangeFeed.step] at hs
    split at hs
    · cases hs
    · obtain rfl := Option.some.inj hs
      cases hf'
  | watchHead =>
    simp only [ChangeFeed.step] at hs
    split at hs
    · cases hs
    · obtain rfl := Option.some.inj hs
      cases hf'
  | events =>
    simp only [ChangeFeed.step] at hs
    split at hs
    · cases hs
    · cases hs
    · rename_i g c hheld _
      obtain rfl := Option.some.inj hs
      exact (hpresent g c hheld (.inl rfl) hf').imp_right .inl
  | watch =>
    simp only [ChangeFeed.step] at hs
    split at hs
    · cases hs
    · cases hs
    · rename_i g c hheld _
      obtain rfl := Option.some.inj hs
      exact (hpresent g c hheld (.inr rfl) hf').imp_right .inl
  | push =>
    simp only [ChangeFeed.step] at hs
    split at hs
    · rename_i since hconn
      obtain rfl := Option.some.inj hs
      obtain ⟨f, hf, rfl⟩ := Option.map_eq_some_iff.mp hf'
      obtain rfl := (h.conn since hconn).2 f hf
      exact .inr (.inl ⟨f, hf, rfl⟩)
    · cases hs
  | disconnect =>
    obtain rfl := Option.some.inj hs
    exact .inr (.inr ⟨hother ⟨nofun, nofun⟩, nofun, nofun, nofun, hf'⟩)

theorem Presents.follow_eq {e : ChangeFeedEvent} {c : Nat} (hp : s.Presents e c) (hs : s.step e = some s') :
    s'.follow = some
      (Follow.read ⟨s.log.head, decide (c < s.log.base), false, 0, []⟩ (s.log.readSince c eventsPage)) := by
  obtain ⟨he, g, hheld, hlt⟩ := hp
  have hpresent : s.present (s.log.readSince c eventsPage) g = some
      (Follow.read ⟨s.log.head, decide (c < s.log.base), false, 0, []⟩ (s.log.readSince c eventsPage)) :=
    if_pos hlt
  rcases he with rfl | rfl
  · simp only [ChangeFeed.step, hheld] at hs
    split at hs
    · cases hs
    · rename_i hnone _
      cases hnone
    · rename_i heq _
      obtain ⟨rfl, rfl⟩ := Prod.mk.inj (Option.some.inj heq)
      exact Option.some.inj hs ▸ hpresent
  · simp only [ChangeFeed.step, hheld] at hs
    split at hs
    · cases hs
    · rename_i hnone _
      cases hnone
    · rename_i heq _
      obtain ⟨rfl, rfl⟩ := Prod.mk.inj (Option.some.inj heq)
      exact Option.some.inj hs ▸ hpresent

/-- Every cursor that is followed was answered `RESYNC`, or presented to an empty log. -/
def Right (s : ChangeFeed) : Prop := ∀ f, s.follow = some f → f.first = true ∨ f.headAt = 0

theorem Right.step (h : s.Inv) (hright : s.Right) {e : ChangeFeedEvent} (hmeets : s.Meets e)
    (hs : s.step e = some s') : s'.Right := by
  intro f' hf'
  rcases follow_cases h hs hf' with ⟨c, hp, rfl⟩ | ⟨f, hf, rfl⟩ | ⟨-, -, -, -, hf⟩
  · rcases hmeets c hp with hlt | hempty
    · exact .inl (decide_eq_true hlt)
    · exact .inr hempty
  · exact hright f hf
  · exact hright f' hf

theorem Right.steps {es : List ChangeFeedEvent} : ∀ {s s' : ChangeFeed}, s.Inv → s.Right → s.AllMeet es →
    s.steps es = some s' → s'.Right := by
  induction es with
  | nil =>
    intro s s' h hright hmeet hs
    exact Option.some.inj hs ▸ hright
  | cons e es ih =>
    intro s s' h hright hmeet hs
    obtain ⟨t, ht, hrest⟩ := Option.bind_eq_some_iff.mp hs
    obtain ⟨hmeets, hmeet⟩ := hmeet
    rw [ht] at hmeet
    exact ih (h.step ht) (hright.step h hmeets ht) hmeet hrest

theorem Inv.answered_iff (h : s.Inv) : s.Answered ↔ s.Right := by
  refine forall₂_congr fun f hf => or_congr_right ⟨fun hall => hall.1, fun h0 => ?_⟩
  obtain ⟨hpos, hdelivered⟩ := h.followed f hf
  refine ⟨h0, hpos, ?_⟩
  cases htold : f.told with
  | true => exact .inl rfl
  | false => exact .inr (hdelivered h0 htold)

/-- In every run, over any number of generations, whose cursors of earlier ones all lie before the
    log or meet an empty one, each of them is answered right; and one that does neither is not. Each
    read that goes on from a cursor comes to the end of its page. -/
theorem old_cursors_are_answered {cap : Nat} {es : List ChangeFeedEvent}
    (hs : (start cap).steps es = some s) :
    ((start cap).AllMeet es → s.Answered) ∧
      (∀ e c s', s.Presents e c → s.step e = some s' →
        (s'.Answered ↔ c < s.log.base ∨ s.log.head = 0)) ∧
      (∀ e s' f f', (e = .push ∨ e = .events ∨ e = .watch) → (∀ c, ¬ s.Presents e c) → s.step e = some s' →
        s.follow = some f → s'.follow = some f' →
        f'.told = true ∨ f'.pos = min (f.pos + eventsPage) s.history.length) := by
  have hinv := (Inv.start cap).steps hs
  refine ⟨fun hmeet => ?_, fun e c s' hp hstep => ?_, fun e s' f f' he hno hstep hf hf' => ?_⟩
  · have hright : Right (start cap) := nofun
    exact hinv.answered_iff.mpr (hright.steps (Inv.start cap) hmeet hs)
  · rw [(hinv.step hstep).answered_iff]
    have hfollow := hp.follow_eq hstep
    constructor
    · intro hright
      exact (hright _ hfollow).imp_left of_decide_eq_true
    · intro hcond f hf
      obtain rfl := Option.some.inj (hfollow.symm.trans hf)
      exact hcond.imp_left decide_eq_true
  · rcases follow_cases hinv hstep hf' with ⟨c, hp, -⟩ | ⟨f₀, hf₀, rfl⟩ | ⟨-, hpush, hevents, hwatch, -⟩
    · exact absurd hp (hno c)
    · obtain rfl := Option.some.inj (hf₀.symm.trans hf)
      exact (hinv.read hf₀).2.2
    · rcases he with rfl | rfl | rfl
      · exact absurd rfl hpush
      · exact absurd rfl hevents
      · exact absurd rfl hwatch

/-- Two changes nobody could read have moved the new log past the cursor: the answer is `RESYNC`. -/
theorem old_cursor_before_log_resyncs : ∃ s f, (start 8).steps
      [.eventsHead, .append [.status ["a"]] false, .events, .restart 8,
        .append [.status ["a"], .status ["b"]] false, .events] = some s ∧
    s.follow = some f ∧ f.first = true ∧ s.Answered := by
  obtain ⟨s, f, hs, hf, hfirst⟩ : ∃ s f, (start 8).steps
        [.eventsHead, .append [.status ["a"]] false, .events, .restart 8,
          .append [.status ["a"], .status ["b"]] false, .events] = some s ∧
      s.follow = some f ∧ f.first = true := ⟨_, _, rfl, rfl, rfl⟩
  refine ⟨s, f, hs, hf, hfirst, (old_cursors_are_answered hs).1 ⟨?_, ?_, ?_, ?_, ?_, ?_, trivial⟩⟩
  · exact fun c hp => absurd hp.1 (by decide)
  · exact fun c hp => absurd hp.1 (by decide)
  · rintro c ⟨-, g, hheld, hlt⟩
    cases hheld
    exact absurd hlt (by decide)
  · exact fun c hp => absurd hp.1 (by decide)
  · exact fun c hp => absurd hp.1 (by decide)
  · rintro c ⟨-, g, hheld, -⟩
    cases hheld
    exact .inl (by decide)

/-- A cursor of the last daemon inside the new one's log: the record before it is never delivered. -/
theorem old_cursor_inside_log_is_served : ∃ s f, (start 8).steps
      [.eventsHead, .append [.status ["a"]] false, .events, .restart 8,
        .append [.status ["a"], .status ["b"]] true, .events] = some s ∧
    s.follow = some f ∧ f.first = false ∧ f.told = false ∧ f.headAt = 2 ∧ f.pos = 2 ∧
    f.delivered = [.status ["b"]] ∧ ¬ s.Answered := by
  refine ⟨_, _, rfl, rfl, rfl, rfl, rfl, rfl, rfl, fun h => ?_⟩
  rcases h _ rfl with hfirst | ⟨hempty, -⟩
  · cases hfirst
  · cases hempty

end ChangeFeed

end Ncrs
