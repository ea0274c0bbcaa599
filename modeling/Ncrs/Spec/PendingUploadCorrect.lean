import Ncrs.Spec.JournalCorrect

/-!
# Where a reader finds a file's newest bytes

`pending_upload` searches the queue newest first. An entry that does not touch a path neither
answers nor redirects the search for it, so taking one upload out of the queue changes the search
of its own path only. Against the user's own history of saves, deletes and renames the search is
right as long as the uploads queued for a name belong to the file the user sees there.
-/

namespace Ncrs

namespace MutationJournal

open MutationOp

/-! ## Retargeting an upload -/

/-- Entries that do not touch a path are skipped in the search for it. -/
theorem pendingUploadIn_skip {path : PathBuf} {newer : List JournalEntry}
    (h : ∀ x ∈ newer, x.op.touches path = false) (older : List JournalEntry) :
    pendingUploadIn path (newer ++ older) [path] false = pendingUploadIn path older [path] false := by
  induction newer with
  | nil => rfl
  | cons x newer ih =>
    have hx := h x List.mem_cons_self
    have ih := ih fun y hy => h y (List.mem_cons_of_mem x hy)
    rw [List.cons_append, ← ih]
    -- None of the operations concerns the path, so the search goes past each of them.
    cases hop : x.op with
    | put p s m =>
      have hp : p ≠ path := by simpa [hop, touches] using hx
      simp [pendingUploadIn, hop, hp]
    | finishChunked p =>
      have hp : p ≠ path := by simpa [hop, touches] using hx
      simp [pendingUploadIn, hop, hp]
    | unlink p =>
      have hp : p ≠ path := by simpa [hop, touches] using hx
      simp [pendingUploadIn, hop, hp]
    | mkDir p => simp [pendingUploadIn, hop]
    | rmDir p =>
      have hp : path.startsWith p = false := by simpa [hop, touches] using hx
      simp [pendingUploadIn, hop, hp]
    | rename src dst s m =>
      have hp : path.startsWith src = false ∧ path.startsWith dst = false := by
        simpa only [hop, touches, Bool.or_eq_false_iff] using hx
      have hdst : path.stripPrefix dst = none :=
        (PathBuf.stripPrefix_eq_none_iff path dst).mpr ((PathBuf.startsWith_eq_false_iff path dst).mp hp.2)
      simp only [pendingUploadIn, hop, hdst]

/-- The upload of a file that nothing newer touches is never what the search for another path looks
for: a rename that led to it would have touched it. -/
theorem pendingUploadIn_erase {path src : PathBuf} {newer older : List JournalEntry} {e : JournalEntry}
    {staging : PathBuf} {ifMatch : Option String} {names : List PathBuf} {moved : Bool}
    (hop : e.op = .put src staging ifMatch) (h : ∀ x ∈ newer, x.op.touches src = false)
    (hnames : src ∉ names) :
    pendingUploadIn path (newer ++ e :: older) names moved =
      pendingUploadIn path (newer ++ older) names moved := by
  induction newer generalizing names moved with
  -- The upload itself is of a file that the search does not look for.
  | nil => simp only [List.nil_append, pendingUploadIn, hop, if_neg hnames]
  | cons x newer ih =>
    have hx := h x List.mem_cons_self
    have ih := fun {names moved} => @ih names moved fun y hy => h y (List.mem_cons_of_mem x hy)
    rw [List.cons_append, List.cons_append]
    cases hxop : x.op with
    | put p s m => simp only [pendingUploadIn, hxop, ih hnames]
    | finishChunked p => simp only [pendingUploadIn, hxop, ih hnames]
    | unlink p => simp only [pendingUploadIn, hxop, ih hnames]
    | mkDir p => simp only [pendingUploadIn, hxop, ih hnames]
    | rmDir p => simp only [pendingUploadIn, hxop, ih hnames]
    | rename a b s m =>
      -- A rename adds a name to look for, which is under its source and so not the upload's.
      have hsrc : ∀ suffix : PathBuf, src ∉ names ++ [a.join suffix] := by
        intro suffix hmem
        obtain hmem | hmem := List.mem_append.mp hmem
        · exact hnames hmem
        · have ha : src.startsWith a = true := by
            rw [List.mem_singleton.mp hmem]
            exact (PathBuf.startsWith_iff _ _).mpr (List.prefix_append a suffix)
          rw [hxop, touches, ha, Bool.true_or] at hx
          cases hx
      simp only [pendingUploadIn, hxop, ih hnames, ih (hsrc _)]

/-- What a granted retarget does to the queue: the upload goes from its place to the end, under its
new name, and no other entry touches the old one. -/
theorem retargetUpload_moves {j : MutationJournal} {src dst : PathBuf} {base : Option String}
    (h : (j.retargetUpload src dst base).1 = true) :
    ∃ before e after staging, j.entries = before ++ e :: after ∧ e.op = .put src staging none ∧
      (∀ x ∈ before ++ after, x.op.touches src = false) ∧
      (j.retargetUpload src dst base).2.entries =
        before ++ after ++ [{ e with op := .put dst staging base, retargeted := true }] := by
  obtain ⟨e, staging, hone, hop, -, hother, hj⟩ := retargetUpload_true h
  have hmem : e ∈ j.entries := by
    have : e ∈ j.entries.filter fun e => e.op.isUploadOf src := by
      rw [hone]
      exact List.mem_singleton_self e
    exact List.mem_of_mem_filter this
  obtain ⟨before, after, hsplit⟩ := List.append_of_mem hmem
  have hupload : e.op.isUploadOf src = true := by simp [hop, isUploadOf]
  -- `e` is the only upload of its file, so the filter takes out nothing else
  have hlen : (before.filter fun e => e.op.isUploadOf src) = [] ∧
      (after.filter fun e => e.op.isUploadOf src) = [] := by
    have hcount := congrArg List.length hone
    rw [hsplit, List.filter_append, List.filter_cons, if_pos hupload] at hcount
    simp only [List.length_append, List.length_cons, List.length_nil] at hcount
    exact ⟨List.length_eq_zero_iff.mp (by omega), List.length_eq_zero_iff.mp (by omega)⟩
  have hkeep : ∀ l : List JournalEntry, (l.filter fun e => e.op.isUploadOf src) = [] →
      (l.filter fun e => !e.op.isUploadOf src) = l := by
    intro l hl
    refine List.filter_eq_self.mpr fun x hx => ?_
    simpa using List.filter_eq_nil_iff.mp hl x hx
  have hrest : (j.entries.filter fun e => !e.op.isUploadOf src) = before ++ after := by
    rw [hsplit, List.filter_append, List.filter_cons_of_neg (by simp [hupload]), hkeep _ hlen.1,
      hkeep _ hlen.2]
  rw [hrest] at hother hj
  exact ⟨before, e, after, staging, hsplit, hop, hother, by rw [hj]; rfl⟩

/-- For a file moved to another name, a granted retarget moves exactly that file: the new name reads
the staged bytes the old one read, the old name reads none, every other path reads what it read, and
the upload is the last of the queue, behind all other entries in their order. A refused retarget leaves
the journal as it is. -/
theorem retarget_moves_that_upload (j : MutationJournal) {src dst : PathBuf} (base : Option String)
    (hne : src ≠ dst) :
    ((j.retargetUpload src dst base).1 = true →
      (∃ staging, j.pendingUpload src = some (.staged staging) ∧
        (j.retargetUpload src dst base).2.pendingUpload dst = some (.staged staging)) ∧
      (j.retargetUpload src dst base).2.pendingUpload src = none ∧
      (∀ q, q ≠ src → q ≠ dst →
        (j.retargetUpload src dst base).2.pendingUpload q = j.pendingUpload q) ∧
      ∃ before e after staging, j.entries = before ++ e :: after ∧ e.op = .put src staging none ∧
        (j.retargetUpload src dst base).2.entries =
          before ++ after ++ [{ e with op := .put dst staging base, retargeted := true }]) ∧
    ((j.retargetUpload src dst base).1 = false → (j.retargetUpload src dst base).2 = j) := by
  refine ⟨fun h => ?_, retargetUpload_false⟩
  obtain ⟨before, e, after, staging, hj, hop, hother, hj'⟩ := retargetUpload_moves h
  have hbefore : ∀ x ∈ before.reverse, x.op.touches src = false := fun x hx =>
    hother x (List.mem_append_left after (List.mem_reverse.mp hx))
  have hafter : ∀ x ∈ after.reverse, x.op.touches src = false := fun x hx =>
    hother x (List.mem_append_right before (List.mem_reverse.mp hx))
  -- The upload goes from its place to the end, under the new name.
  refine ⟨⟨staging, ?_, ?_⟩, ?_, fun q hsrc hdst => ?_, before, e, after, staging, hj, hop, hj'⟩
  · -- The source before: nothing newer concerns it, so the upload is found.
    rw [pendingUpload, hj, List.reverse_append, List.reverse_cons, List.append_assoc,
      pendingUploadIn_skip hafter]
    simp [pendingUploadIn, hop]
  · -- The destination after: the upload is the newest entry.
    simp [pendingUpload, hj', pendingUploadIn]
  · -- The source after: nothing left concerns it.
    rw [pendingUpload, hj', List.reverse_append, List.reverse_append]
    have hlast : dst ≠ src := fun h => hne h.symm
    simp only [List.reverse_singleton, List.singleton_append, pendingUploadIn, List.mem_singleton, if_neg hlast]
    rw [pendingUploadIn_skip hafter, ← List.append_nil before.reverse, pendingUploadIn_skip hbefore]
    rfl
  · -- Any other path: the upload was not found before and is not now.
    have hlast : dst ≠ q := fun h => hdst h.symm
    have hnames : src ∉ [q] := fun hmem => hsrc (List.mem_singleton.mp hmem).symm
    rw [pendingUpload, pendingUpload, hj', hj, List.reverse_append, List.reverse_append]
    simp only [List.reverse_singleton, List.singleton_append, pendingUploadIn, List.mem_singleton, if_neg hlast]
    rw [List.reverse_append, List.reverse_cons, List.append_assoc, List.singleton_append,
      pendingUploadIn_erase hop hafter hnames]

/-- A document was saved, then a new file beside it, then another document. -/
def savedTmp : MutationJournal :=
  let saved := ((loadOrCreate { files := fun _ => none }).enqueue
    (.put ["report.odt"] ["staging_report"] (some "v1"))).2
  let written := (saved.enqueue (.put ["lu123.tmp"] ["staging_lo"] none)).2
  (written.enqueue (.put ["notes.odt"] ["staging_notes"] none)).2

theorem retarget_to_document :
    ["lu123.tmp"] ≠ ["report.odt"] ∧
      (savedTmp.retargetUpload ["lu123.tmp"] ["report.odt"] none).1 = true ∧
      (savedTmp.retargetUpload ["lu123.tmp"] ["report.odt"] none).2.pendingUpload ["report.odt"] =
        some (.staged ["staging_lo"]) ∧
      (savedTmp.retargetUpload ["lu123.tmp"] ["report.odt"] none).2.pendingUpload ["lu123.tmp"] = none ∧
      (savedTmp.retargetUpload ["lu123.tmp"] ["report.odt"] none).2.pendingUpload ["notes.odt"] =
        savedTmp.pendingUpload ["notes.odt"] := by
  have hdone : (savedTmp.retargetUpload ["lu123.tmp"] ["report.odt"] none).1 = true := by decide
  obtain ⟨⟨staging, hfrom, hto⟩, hgone, hothers, -⟩ :=
    (savedTmp.retarget_moves_that_upload none (by decide)).1 hdone
  have hnow : savedTmp.pendingUpload ["lu123.tmp"] = some (.staged ["staging_lo"]) := by decide
  rw [hnow] at hfrom
  cases hfrom
  exact ⟨by decide, hdone, hto, hgone, hothers ["notes.odt"] (by decide) (by decide)⟩

/-- Retargeted to the name it has, the file can still be read under it. -/
theorem retarget_onto_itself_stays_readable :
    (savedTmp.retargetUpload ["lu123.tmp"] ["lu123.tmp"] none).1 = true ∧
      (savedTmp.retargetUpload ["lu123.tmp"] ["lu123.tmp"] none).2.pendingUpload ["lu123.tmp"] =
        some (.staged ["staging_lo"]) := by
  decide

/-! ## Reading one name -/

end MutationJournal

namespace MutationOp

/-- The content this operation uploads to `path`. -/
def uploadAt (path : PathBuf) : MutationOp → Option PendingUpload
  | put p s _ => if p = path then some (.staged s) else none
  | finishChunked p _ _ b _ t _ sp h whole =>
    if p = path then some (if whole then .staged t else .streamTail t b h sp) else none
  | _ => none

/-- A delete of `path` or of a folder above it. -/
def deletesAt (path : PathBuf) : MutationOp → Bool
  | unlink gone => gone = path
  | rmDir gone => path.startsWith gone
  | _ => false

/-- A rename onto `path` or onto a folder above it. -/
def movesOnto (path : PathBuf) : MutationOp → Bool
  | rename _ dst _ _ => path.startsWith dst
  | _ => false

/-- The path this operation uploads to. -/
def uploadPath : MutationOp → Option PathBuf
  | put p _ _ => some p
  | finishChunked p _ _ _ _ _ _ _ _ _ => some p
  | _ => none

/-- A rename that takes `path` or a folder above it away. -/
def movesFrom (path : PathBuf) : MutationOp → Bool
  | rename src _ _ _ => path.startsWith src
  | _ => false

/-- An operation is an upload of the path that it names as its upload. -/
theorem isUploadOf_iff {op : MutationOp} {path : PathBuf} :
    op.isUploadOf path = true ↔ path ∈ op.uploadPath := by
  cases op <;> simp [isUploadOf, uploadPath, eq_comm]

/-- No upload shows at a path that the operation is no upload of. -/
theorem uploadAt_eq_none_iff {op : MutationOp} {path : PathBuf} :
    op.uploadAt path = none ↔ op.isUploadOf path = false := by
  cases op <;> simp [uploadAt, isUploadOf]

/-- `m`, queued after `op`, moves nothing that `op` uploads to. -/
def Behind (op m : MutationOp) : Prop :=
  ∀ src dst s c, m = rename src dst s c → ∀ p, op.isUploadOf p = true → ¬ src <+: p

end MutationOp

namespace MutationJournal

open MutationOp

/-- The search for the uploads queued for `path` itself, newest first: a delete ends it unless a rename
onto the path was passed. -/
def newestIn (path : PathBuf) : List MutationOp → Bool → Option PendingUpload
  | [], _ => none
  | op :: rest, moved =>
    match op.uploadAt path with
    | some u => some u
    | none =>
      if op.deletesAt path && !moved then none else newestIn path rest (moved || op.movesOnto path)

/-- The search looks at the newest operation first. -/
theorem newestIn_cons (path : PathBuf) (op : MutationOp) (rest : List MutationOp) (moved : Bool) :
    newestIn path (op :: rest) moved =
      match op.uploadAt path with
      | some u => some u
      | none =>
        if op.deletesAt path && !moved then none else newestIn path rest (moved || op.movesOnto path) := rfl

/-- Where no upload is queued for a name that a later MOVE takes it from, the names that the search
follows lead nowhere. -/
theorem pendingUploadIn_eq_newestIn {path : PathBuf} {newer : List JournalEntry} {names : List PathBuf}
    {moved : Bool} (hself : path ∈ names)
    (hnames : ∀ n ∈ names, n ≠ path → ∀ e ∈ newer, e.op.isUploadOf n = false)
    (hbehind : (newer.map (·.op)).Pairwise fun m op => op.Behind m)
    (hcopies : ∀ e ∈ newer, ∀ src dst s c, e.op = .rename src dst s c → s = none) :
    pendingUploadIn path newer names moved = newestIn path (newer.map (·.op)) moved := by
  induction newer generalizing names moved with
  | nil => rfl
  | cons e rest ih =>
    -- The induction is on the queue, newest first; the search goes on with the older entries.
    rw [List.map_cons, List.pairwise_cons] at hbehind
    have hrest := fun n hn hne x hx => hnames n hn hne x (List.mem_cons_of_mem e hx)
    have ih := fun {names moved} hself hnames => @ih names moved hself hnames hbehind.2
      fun x hx => hcopies x (List.mem_cons_of_mem e hx)
    -- an upload that the search would stop at is an upload of the path itself
    have hown : ∀ p, e.op.isUploadOf p = true → p ∈ names → p = path := by
      intro p hp hmem
      by_contra hne
      rw [hnames p hmem hne e List.mem_cons_self] at hp
      cases hp
    rw [List.map_cons]
    cases hop : e.op with
    | put p s m =>
      have hp : p ∈ names ↔ p = path :=
        ⟨hown p (by simp [hop, isUploadOf]), fun h => h ▸ hself⟩
      by_cases h : p = path
      · simp [pendingUploadIn, newestIn_cons, uploadAt, hop, h, hself]
      · simp [pendingUploadIn, newestIn_cons, uploadAt, deletesAt, movesOnto, hop, h, hp, ih hself hrest]
    | finishChunked p u n b l t m sp h w =>
      have hp : p ∈ names ↔ p = path :=
        ⟨hown p (by simp [hop, isUploadOf]), fun h => h ▸ hself⟩
      by_cases hpath : p = path
      · simp only [pendingUploadIn, newestIn_cons, uploadAt, hop, hpath, hself, if_true]
        split <;> rfl
      · simp [pendingUploadIn, newestIn_cons, uploadAt, deletesAt, movesOnto, hop, hpath, hp, ih hself hrest]
    | mkDir p => simp [pendingUploadIn, newestIn_cons, uploadAt, deletesAt, movesOnto, hop, ih hself hrest]
    | unlink p =>
      simp only [pendingUploadIn, newestIn_cons, uploadAt, deletesAt, movesOnto, hop,
        ih hself hrest, Bool.or_false]
    | rmDir p =>
      simp only [pendingUploadIn, newestIn_cons, uploadAt, deletesAt, movesOnto, hop,
        ih hself hrest, Bool.or_false]
    | rename src dst s m =>
      obtain rfl := hcopies e List.mem_cons_self src dst s m hop
      -- No MOVE onto a folder of the path: the search goes on under the same names.
      cases hstrip : path.stripPrefix dst with
      | none =>
        have hdst : path.startsWith dst = false := by
          rw [PathBuf.startsWith_eq_false_iff, ← PathBuf.stripPrefix_eq_none_iff]
          exact hstrip
        simp [pendingUploadIn, newestIn_cons, uploadAt, deletesAt, movesOnto, hop, hstrip, hdst, ih hself hrest]
      | some suffix =>
        -- The names looked for grow by the old one, which no older upload has.
        have hdst : path.startsWith dst = true := by
          rw [(PathBuf.stripPrefix_eq_some_iff path dst suffix).mp hstrip, PathBuf.startsWith_iff]
          exact List.prefix_append dst suffix
        -- An older upload under the source would have been re-pointed, so it is not behind the MOVE.
        have hnames' : ∀ n ∈ names ++ [src.join suffix], n ≠ path → ∀ x ∈ rest,
            x.op.isUploadOf n = false := by
          intro n hn hne x hx
          obtain hn | hn := List.mem_append.mp hn
          · exact hrest n hn hne x hx
          · rw [List.mem_singleton.mp hn]
            by_contra hup
            rw [Bool.not_eq_false] at hup
            exact hbehind.1 x.op (List.mem_map_of_mem hx) src dst none m hop _ hup
              (List.prefix_append src suffix)
        simp [pendingUploadIn, newestIn_cons, uploadAt, deletesAt, movesOnto, hop, hstrip, hdst,
          ih (List.mem_append_left _ hself) hnames']

/-- Once a rename onto the path was passed, the newest upload queued for it is the answer. -/
theorem newestIn_moved (path : PathBuf) (newer : List MutationOp) :
    newestIn path newer true = newer.findSome? (uploadAt path) := by
  induction newer with
  | nil => rfl
  | cons op rest ih =>
    rw [newestIn_cons, List.findSome?_cons, Bool.not_true, Bool.and_false, if_neg Bool.false_ne_true,
      Bool.true_or, ih]
    cases op.uploadAt path <;> rfl

/-- The search answers with the newest upload queued for the path, or with nothing. -/
theorem newestIn_eq_findSome {path : PathBuf} {newer : List MutationOp} {moved : Bool}
    (h : newestIn path newer moved ≠ none) :
    newestIn path newer moved = newer.findSome? (uploadAt path) := by
  induction newer generalizing moved with
  | nil => rfl
  | cons op rest ih =>
    rw [newestIn_cons] at h ⊢
    rw [List.findSome?_cons]
    cases hop : op.uploadAt path with
    | some u => rfl
    | none =>
      simp only [hop] at h ⊢
      split at h
      · exact absurd rfl h
      · rename_i hdel
        rw [if_neg hdel]
        exact ih h

/-- The search finds nothing where nothing is uploaded. -/
theorem newestIn_eq_none {path : PathBuf} {newer : List MutationOp} {moved : Bool}
    (h : ∀ op ∈ newer, op.uploadAt path = none) : newestIn path newer moved = none := by
  by_contra hne
  rw [newestIn_eq_findSome hne, List.findSome?_eq_none_iff.mpr h] at hne
  exact hne rfl

/-- The search for a path looks at three things in each operation. -/
theorem newestIn_congr {α : Type} {path : PathBuf} {f g : α → MutationOp} {l : List α}
    (h : ∀ x ∈ l, (f x).uploadAt path = (g x).uploadAt path ∧ (f x).deletesAt path = (g x).deletesAt path ∧
      (f x).movesOnto path = (g x).movesOnto path) (moved : Bool) :
    newestIn path (l.map f) moved = newestIn path (l.map g) moved := by
  induction l generalizing moved with
  | nil => rfl
  | cons x l ih =>
    obtain ⟨hup, hdel, hmove⟩ := h x List.mem_cons_self
    simp only [List.map_cons, newestIn_cons, hup, hdel, hmove,
      ih fun y hy => h y (List.mem_cons_of_mem x hy)]

/-- Entries whose operations concern other paths may go. -/
theorem newestIn_filter {path : PathBuf} {keep : JournalEntry → Bool} {newer : List JournalEntry}
    (h : ∀ e ∈ newer, keep e = false →
      e.op.uploadAt path = none ∧ e.op.deletesAt path = false ∧ e.op.movesOnto path = false) (moved : Bool) :
    newestIn path ((newer.filter keep).map (·.op)) moved = newestIn path (newer.map (·.op)) moved := by
  induction newer generalizing moved with
  | nil => rfl
  | cons e rest ih =>
    have ih := ih fun x hx => h x (List.mem_cons_of_mem e hx)
    cases hkeep : keep e with
    | true => simp only [List.filter_cons, hkeep, if_true, List.map_cons, newestIn_cons, ih]
    | false =>
      obtain ⟨hup, hdel, hmove⟩ := h e List.mem_cons_self hkeep
      simp [hkeep, newestIn_cons, hup, hdel, hmove, ih]

/-! ## The user's history -/

/-- What the user's file operations and the live workers do to the queue. -/
inductive UserOp where
  | record (op : MutationOp)
  | claim (seq : SeqId)
  deriving DecidableEq, Repr

def UserOp.apply (j : MutationJournal) : UserOp → MutationJournal
  | .record op => (j.enqueue op).2
  | .claim seq => (j.claim seq).2

/-- For each path the newest queued upload of the file the user sees there; none also where the user
sees no file. -/
abbrev Newest := PathBuf → Option PendingUpload

/-- What the user's operation does to the files: a rename takes what is at and below its source along. -/
def UserOp.follow (n : Newest) : UserOp → Newest
  | .record (.put p s m) => Function.update n p (uploadAt p (.put p s m))
  | .record (.finishChunked p u i b l t m sp h w) =>
    Function.update n p (uploadAt p (.finishChunked p u i b l t m sp h w))
  | .record (.unlink p) => Function.update n p none
  | .record (.rmDir p) => fun q => if q.startsWith p then none else n q
  | .record (.rename src dst _ _) => fun q =>
    match q.stripPrefix dst with
    | some suffix => n (src.join suffix)
    | none => if q.startsWith src then none else n q
  | .record (.mkDir _) => n
  | .claim _ => n

/-- A rename to another place (the kernel lets no folder move into itself or onto one that holds it)
under a name for which no upload is queued. -/
structure Free (j : MutationJournal) (src dst : PathBuf) : Prop where
  apart : ¬ src <+: dst ∧ ¬ dst <+: src
  free : ∀ e ∈ j.entries, e.op.uploadPath ≠ some dst

/-- The renames that the queue can follow. -/
structure Followed (j : MutationJournal) (n : Newest) (src dst : PathBuf) : Prop where
  /-- No worker holds an upload of what is moved. -/
  unheld : ∀ e ∈ j.entries, ∀ p ∈ e.op.uploadPath, src <+: p → e.inFlight = false
  /-- Uploads queued for the names that are moved belong to a file the user still sees there. -/
  live : ∀ e ∈ j.entries, ∀ p ∈ e.op.uploadPath, src <+: p → (n p).isSome
  /-- No upload of a deleted file is still queued below the new name of a folder. -/
  clear : ∀ e ∈ j.entries, ∀ p ∈ e.op.uploadPath, dst <+: p → p = dst
  /-- No upload gets a name from which a MOVE queued after it takes another file. -/
  vacant : (j.entries.map (·.op)).Pairwise fun op m => ∀ p ∈ op.uploadPath,
    ∀ suffix ∈ p.stripPrefix src, m.movesFrom (dst ++ suffix) = false

/-- The queue holds for every path what the user's history says. -/
structure Reads (j : MutationJournal) (n : Newest) : Prop where
  newest : ∀ p, newestIn p (j.entries.map (·.op)).reverse false = n p
  behind : (j.entries.map (·.op)).Pairwise Behind
  copies : ∀ op ∈ j.entries.map (·.op), ∀ src dst s c, op = .rename src dst s c → s = none
  fixed : ∀ e ∈ j.entries, e.retargeted = false

theorem Reads.pendingUpload {j : MutationJournal} {n : Newest} (h : Reads j n) (p : PathBuf) :
    j.pendingUpload p = n p := by
  rw [← h.newest p, MutationJournal.pendingUpload, ← List.map_reverse]
  apply pendingUploadIn_eq_newestIn (List.mem_singleton_self p)
  · intro q hq hne
    exact absurd (List.mem_singleton.mp hq) hne
  · rw [List.map_reverse, List.pairwise_reverse]
    exact h.behind
  · intro e he
    exact h.copies e.op (List.mem_map_of_mem (List.mem_reverse.mp he))

/-- Queueing an operation that is not a rename, behind what coalescing leaves of the queue. -/
theorem Reads.push {j : MutationJournal} {n n' : Newest} {op : MutationOp} (h : Reads j n)
    (keep : JournalEntry → Bool) (hop : ∀ src dst s m, op ≠ .rename src dst s m)
    (hkeep : (j.coalesceBeforeEnqueue op).entries = j.entries.filter keep)
    (hnewest : ∀ p, newestIn p (op :: ((j.entries.filter keep).map (·.op)).reverse) false = n' p) :
    Reads (j.enqueue op).2 n' := by
  have hentries : (j.enqueue op).2.entries =
      j.entries.filter keep ++ [{ seq := j.nextSeq, op := op }] := by
    rw [j.enqueue_entries, map_followRename hop, hkeep]
  have hsub : List.Sublist (j.entries.filter keep) j.entries := List.filter_sublist
  have hops : (j.enqueue op).2.entries.map (·.op) = (j.entries.filter keep).map (·.op) ++ [op] := by
    rw [hentries, List.map_append]
    rfl
  refine ⟨fun p => ?_, ?_, ?_, ?_⟩
  · -- The new operation comes first in the search.
    rw [hops, List.reverse_append]
    exact hnewest p
  · -- It is behind no MOVE, being none itself.
    rw [hops, List.pairwise_append]
    refine ⟨h.behind.sublist (hsub.map _), List.pairwise_singleton _ _, ?_⟩
    intro a _ b hb src dst s m hb'
    exact absurd ((List.mem_singleton.mp hb).symm.trans hb') (hop src dst s m)
  · rw [hops]
    intro x hx src dst s m hxop
    obtain hx | hx := List.mem_append.mp hx
    · exact h.copies x ((hsub.map _).subset hx) src dst s m hxop
    · exact absurd ((List.mem_singleton.mp hx).symm.trans hxop) (hop src dst s m)
  · rw [hentries]
    intro e he
    obtain he | he := List.mem_append.mp he
    · exact h.fixed e (hsub.subset he)
    · rw [List.mem_singleton.mp he]

/-! ## Renaming what is queued -/

section Rename

variable {src dst : PathBuf}

/-- Where the rename leaves a name: below `dst` when it was below `src`, else as it is. -/
theorem rewritePath_cases (src dst p : PathBuf) :
    (∃ suffix, p = src ++ suffix ∧ rewritePath src dst p = dst ++ suffix) ∨
      (¬ src <+: p ∧ rewritePath src dst p = p) := by
  unfold rewritePath
  cases h : p.stripPrefix src with
  | some suffix => exact Or.inl ⟨suffix, (PathBuf.stripPrefix_eq_some_iff p src suffix).mp h, rfl⟩
  | none => exact Or.inr ⟨(PathBuf.stripPrefix_eq_none_iff p src).mp h, rfl⟩

/-- Seen from a path outside of both names, a rename changes no name above it. -/
theorem rewritePath_prefix_iff {p q : PathBuf} (hsrc : ¬ src <+: q) (hdst : ¬ dst <+: q) :
    rewritePath src dst p <+: q ↔ p <+: q := by
  obtain ⟨suffix, rfl, h⟩ | ⟨-, h⟩ := rewritePath_cases src dst p
  · rw [h]
    constructor
    · intro hpre
      exact absurd ((List.prefix_append dst suffix).trans hpre) hdst
    · intro hpre
      exact absurd ((List.prefix_append src suffix).trans hpre) hsrc
  · rw [h]

/-- Outside the rename's two folders a path is rewritten to itself only. -/
theorem rewritePath_eq_iff {p q : PathBuf} (hsrc : ¬ src <+: q) (hdst : ¬ dst <+: q) :
    rewritePath src dst p = q ↔ p = q := by
  obtain ⟨suffix, rfl, h⟩ | ⟨-, h⟩ := rewritePath_cases src dst p
  · rw [h]
    constructor
    · rintro rfl
      exact absurd (List.prefix_append dst suffix) hdst
    · rintro rfl
      exact absurd (List.prefix_append src suffix) hsrc
  · rw [h]

/-- An operation uploads to no path or to one, which a rename rewrites. -/
theorem upload_cases (op : MutationOp) :
    (∀ q, op.isUploadOf q = false) ∧
        (∀ old new d m q, ((op.updatePathPrefix old new).condition d m).uploadAt q = none) ∨
      ∃ p u, (∀ q, op.isUploadOf q = decide (p = q)) ∧
        (∀ q, op.uploadAt q = if p = q then some u else none) ∧
        ∀ old new d m q, ((op.updatePathPrefix old new).condition d m).uploadAt q =
          if rewritePath old new p = q then some u else none := by
  cases op with
  | put p s c =>
    refine Or.inr ⟨p, .staged s, fun q => rfl, fun q => rfl, fun old new d m q => ?_⟩
    cases c with
    | some c => rfl
    | none =>
      simp only [updatePathPrefix, condition]
      split <;> rfl
  | finishChunked p u i b l t c sp h w =>
    refine Or.inr ⟨p, if w then .staged t else .streamTail t b h sp, fun q => rfl, fun q => rfl,
      fun old new d m q => ?_⟩
    cases c with
    | some c => rfl
    | none =>
      simp only [updatePathPrefix, condition]
      split <;> rfl
  | mkDir p => exact Or.inl ⟨fun _ => rfl, fun _ _ _ _ _ => rfl⟩
  | unlink p => exact Or.inl ⟨fun _ => rfl, fun _ _ _ _ _ => rfl⟩
  | rmDir p => exact Or.inl ⟨fun _ => rfl, fun _ _ _ _ _ => rfl⟩
  | rename a b s c => exact Or.inl ⟨fun _ => rfl, fun _ _ _ _ _ => rfl⟩

/-- A queued operation after a rename: as it was while a worker has it, else rewritten. -/
theorem followRename_op {s : Option PathBuf} {m : Option String} {e : JournalEntry}
    (hfixed : e.retargeted = false) :
    (followRename (.rename src dst s m) e).op =
      if e.inFlight then e.op else (e.op.updatePathPrefix src dst).condition dst m := by
  simp only [followRename, hfixed]
  cases e.inFlight <;> rfl

variable {e : JournalEntry} {s : Option PathBuf} {m : Option String}

/-- After the rename, a queued upload is found below `dst` where it was below `src`, and elsewhere as
before. -/
theorem followRename_uploadAt (hfixed : e.retargeted = false)
    (hfree : ∀ p, e.op.isUploadOf p = true → ¬ dst <+: p)
    (hunheld : ∀ p, e.op.isUploadOf p = true → src <+: p → e.inFlight = false) (q : PathBuf) :
    (followRename (.rename src dst s m) e).op.uploadAt q =
      match q.stripPrefix dst with
      | some suffix => e.op.uploadAt (src ++ suffix)
      | none => if q.startsWith src then none else e.op.uploadAt q := by
  rw [followRename_op hfixed]
  obtain ⟨hnot, hnone⟩ | ⟨p, u, hup, hat, hmoved⟩ := upload_cases e.op
  · -- No upload: nothing is found in it, before or after.
    have hbefore : ∀ x, e.op.uploadAt x = none := fun x => uploadAt_eq_none_iff.mpr (hnot x)
    have hafter : (if e.inFlight then e.op else (e.op.updatePathPrefix src dst).condition dst m).uploadAt q =
        none := by
      split
      · exact hbefore q
      · exact hnone _ _ _ _ q
    rw [hafter]
    cases q.stripPrefix dst <;> simp [hbefore]
  · have hp : e.op.isUploadOf p = true := by simp [hup]
    -- an upload that a worker has lies outside the source, where renaming changes nothing
    have hafter : (if e.inFlight then e.op else (e.op.updatePathPrefix src dst).condition dst m).uploadAt q =
        if rewritePath src dst p = q then some u else none := by
      split
      · rename_i hheld
        obtain ⟨suffix, rfl, -⟩ | ⟨-, h⟩ := rewritePath_cases src dst p
        · rw [hunheld _ hp (List.prefix_append src suffix)] at hheld
          cases hheld
        · rw [h, hat]
      · exact hmoved _ _ _ _ q
    rw [hafter]
    -- Under the source the upload moves with it; elsewhere it stays, and not under the destination.
    obtain ⟨suffix, rfl, h⟩ | ⟨hout, h⟩ := rewritePath_cases src dst p
    · rw [h]
      cases hq : q.stripPrefix dst with
      | some t =>
        obtain rfl := (PathBuf.stripPrefix_eq_some_iff q dst t).mp hq
        simp [hat]
      | none =>
        have hne : dst ++ suffix ≠ q := by
          rintro rfl
          exact (PathBuf.stripPrefix_eq_none_iff _ dst).mp hq (List.prefix_append dst suffix)
        by_cases hsrc : src <+: q
        · simp [hne, hsrc]
        · have hne' : src ++ suffix ≠ q := by
            rintro rfl
            exact hsrc (List.prefix_append src suffix)
          simp [hne, hat, hne']
    · rw [h]
      cases hq : q.stripPrefix dst with
      | some t =>
        obtain rfl := (PathBuf.stripPrefix_eq_some_iff q dst t).mp hq
        have hne : p ≠ dst ++ t := by
          rintro rfl
          exact hfree _ hp (List.prefix_append dst t)
        have hne' : p ≠ src ++ t := by
          rintro rfl
          exact hout (List.prefix_append src t)
        simp [hat, hne, hne']
      | none =>
        -- Under the source nothing is left, and an upload outside does not show there.
        by_cases hsrc : src <+: q
        · have hne : p ≠ q := by
            rintro rfl
            exact hout hsrc
          simp [hne, hsrc]
        · simp [hat, hsrc]

/-- A condition changes what an operation is based on, not what it deletes or moves. -/
theorem condition_shape (op : MutationOp) (d : PathBuf) (c : Option String) (q : PathBuf) :
    (op.condition d c).deletesAt q = op.deletesAt q ∧ (op.condition d c).movesOnto q = op.movesOnto q := by
  unfold condition
  split
  · split <;> exact ⟨rfl, rfl⟩
  · split <;> exact ⟨rfl, rfl⟩
  · exact ⟨rfl, rfl⟩

/-- Outside of both names the rename changes no delete and no earlier rename. -/
theorem followRename_outside (hfixed : e.retargeted = false) {q : PathBuf} (hsrc : ¬ src <+: q)
    (hdst : ¬ dst <+: q) :
    (followRename (.rename src dst s m) e).op.deletesAt q = e.op.deletesAt q ∧
      (followRename (.rename src dst s m) e).op.movesOnto q = e.op.movesOnto q := by
  rw [followRename_op hfixed]
  split
  · exact ⟨rfl, rfl⟩
  · have hpre : ∀ p, (q.startsWith (rewritePath src dst p)) = q.startsWith p := by
      intro p
      rw [Bool.eq_iff_iff, PathBuf.startsWith_iff, PathBuf.startsWith_iff]
      exact rewritePath_prefix_iff hsrc hdst
    rw [(condition_shape _ dst m q).1, (condition_shape _ dst m q).2]
    cases hop : e.op with
    | put p s c => exact ⟨rfl, rfl⟩
    | finishChunked p => exact ⟨rfl, rfl⟩
    | mkDir p => exact ⟨rfl, rfl⟩
    | unlink p => simp [updatePathPrefix, deletesAt, movesOnto, rewritePath_eq_iff hsrc hdst]
    | rmDir p => simp only [updatePathPrefix, deletesAt, movesOnto, hpre, and_self]
    | rename a b s c => simp only [updatePathPrefix, deletesAt, movesOnto, hpre, and_self]

/-- A queued MOVE stays one, its source rewritten unless a worker has it. -/
theorem followRename_rename (hfixed : e.retargeted = false) {a b : PathBuf} {s' : Option PathBuf}
    {c : Option String} (h : (followRename (.rename src dst s m) e).op = .rename a b s' c) :
    ∃ a₀ b₀, e.op = .rename a₀ b₀ s' c ∧ (a = a₀ ∨ a = rewritePath src dst a₀) := by
  rw [followRename_op hfixed] at h
  split at h
  · exact ⟨a, b, h, Or.inl rfl⟩
  · cases hop : e.op with
    | rename a₀ b₀ s₀ c₀ =>
      rw [hop, updatePathPrefix, condition] at h
      cases h
      · exact ⟨a₀, b₀, rfl, Or.inr rfl⟩
      · intros
        contradiction
      · intros
        contradiction
    | put p s c =>
      rw [hop] at h
      cases c <;> simp [updatePathPrefix, condition, ite_eq_iff] at h
    | finishChunked p u i b l t c =>
      rw [hop] at h
      cases c <;> simp [updatePathPrefix, condition, ite_eq_iff] at h
    | mkDir p => rw [hop] at h; cases h
    | unlink p => rw [hop] at h; cases h
    | rmDir p => rw [hop] at h; cases h

end Rename

/-! ### A rename the queue can follow -/

section Follow

variable {j : MutationJournal} {n : Newest} {src dst : PathBuf} {m : Option String}

/-- No upload is queued at the new name or below it. -/
theorem Followed.no_target (hfollow : Followed j n src dst) (hfree : Free j src dst)
    {e : JournalEntry} (he : e ∈ j.entries) {p : PathBuf} (hp : e.op.isUploadOf p = true) :
    ¬ dst <+: p := by
  intro hpre
  have hp := isUploadOf_iff.mp hp
  rw [hfollow.clear e he p hp hpre] at hp
  exact hfree.free e he hp

/-- What a queued operation uploads to `q` once it follows the rename. -/
theorem Reads.followRename_uploadAt (h : Reads j n) (hfree : Free j src dst)
    (hfollow : Followed j n src dst) {e : JournalEntry} (he : e ∈ j.entries) (q : PathBuf) :
    (followRename (.rename src dst none m) e).op.uploadAt q =
      match q.stripPrefix dst with
      | some suffix => e.op.uploadAt (src ++ suffix)
      | none => if q.startsWith src then none else e.op.uploadAt q :=
  MutationJournal.followRename_uploadAt (h.fixed e he) (fun _ hp => hfollow.no_target hfree he hp)
    (fun p hp => hfollow.unheld e he p (isUploadOf_iff.mp hp)) q

/-- At the new name and below it the queue reads what the user has at the old one. -/
theorem Reads.newest_target (h : Reads j n) (hfree : Free j src dst) (hfollow : Followed j n src dst)
    (suffix : PathBuf) :
    newestIn (dst ++ suffix)
      (j.entries.reverse.map fun e => (followRename (.rename src dst none m) e).op) true =
        n (src ++ suffix) := by
  have hq : PathBuf.stripPrefix (dst ++ suffix) dst = some suffix :=
    (PathBuf.stripPrefix_eq_some_iff _ _ _).mpr rfl
  rw [newestIn_moved, List.findSome?_map]
  -- Every queued upload under the source is re-pointed to the destination.
  have hsame : ∀ e ∈ j.entries.reverse,
      (uploadAt (dst ++ suffix) ∘ fun e => (followRename (.rename src dst none m) e).op) e =
        (uploadAt (src ++ suffix) ∘ (·.op)) e := by
    intro e he
    rw [Function.comp_apply, Function.comp_apply,
      h.followRename_uploadAt hfree hfollow (List.mem_reverse.mp he), hq]
  rw [List.findSome?_congr hsame, ← List.findSome?_map]
  have hold : n (src ++ suffix) =
      newestIn (src ++ suffix) (j.entries.reverse.map (·.op)) false := by
    rw [List.map_reverse]
    exact (h.newest _).symm
  by_cases hn : n (src ++ suffix) = none
  · -- an upload queued for the old name would be one that the user still sees
    rw [hn, List.findSome?_eq_none_iff]
    intro op hop
    obtain ⟨e, he, rfl⟩ := List.mem_map.mp hop
    rw [uploadAt_eq_none_iff]
    by_contra hup
    rw [Bool.not_eq_false] at hup
    have hsome := hfollow.live e (List.mem_reverse.mp he) _ (isUploadOf_iff.mp hup)
      (List.prefix_append src suffix)
    rw [hn] at hsome
    cases hsome
  · rw [hold] at hn ⊢
    exact (newestIn_eq_findSome hn).symm

/-- Away from the new name the queue reads nothing at the old one, and elsewhere what it read. -/
theorem Reads.newest_elsewhere (h : Reads j n) (hfree : Free j src dst)
    (hfollow : Followed j n src dst) {q : PathBuf} (hdst : ¬ dst <+: q) :
    newestIn q (j.entries.reverse.map fun e => (followRename (.rename src dst none m) e).op) false =
      if q.startsWith src then none else n q := by
  have hq := (PathBuf.stripPrefix_eq_none_iff q dst).mpr hdst
  by_cases hsrc : src <+: q
  · have hstarts := (PathBuf.startsWith_iff q src).mpr hsrc
    rw [if_pos hstarts]
    apply newestIn_eq_none
    intro op hop
    obtain ⟨e, he, rfl⟩ := List.mem_map.mp hop
    rw [h.followRename_uploadAt hfree hfollow (List.mem_reverse.mp he), hq]
    exact if_pos hstarts
  · have hstarts : ¬ q.startsWith src = true := fun hs => hsrc ((PathBuf.startsWith_iff q src).mp hs)
    rw [if_neg hstarts, ← h.newest q, ← List.map_reverse]
    apply newestIn_congr
    intro e he
    obtain ⟨hdel, hmove⟩ := followRename_outside (s := none) (m := m)
      (h.fixed e (List.mem_reverse.mp he)) hsrc hdst
    refine ⟨?_, hdel, hmove⟩
    rw [h.followRename_uploadAt hfree hfollow (List.mem_reverse.mp he), hq]
    exact if_neg hstarts

/-- Every upload is where the rename left it. -/
theorem Reads.followRename_isUploadOf (h : Reads j n) (hfree : Free j src dst)
    (hfollow : Followed j n src dst) {e : JournalEntry} (he : e ∈ j.entries) {q : PathBuf}
    (hq : (followRename (.rename src dst none m) e).op.isUploadOf q = true) :
    ∃ p, e.op.isUploadOf p = true ∧ q = rewritePath src dst p := by
  have hup : (followRename (.rename src dst none m) e).op.uploadAt q ≠ none := by
    rw [ne_eq, uploadAt_eq_none_iff, hq]
    exact Bool.noConfusion
  rw [h.followRename_uploadAt hfree hfollow he q] at hup
  cases hdst : q.stripPrefix dst with
  | some suffix =>
    rw [hdst] at hup
    refine ⟨src ++ suffix, ?_, ?_⟩
    · by_contra hnot
      exact hup (uploadAt_eq_none_iff.mpr (by simpa using hnot))
    · rw [rewritePath, PathBuf.stripPrefix_append]
      exact (PathBuf.stripPrefix_eq_some_iff q dst suffix).mp hdst
  | none =>
    simp only [hdst, ne_eq, ite_eq_left_iff, not_forall] at hup
    obtain ⟨hsrc, hup⟩ := hup
    refine ⟨q, ?_, ?_⟩
    · by_contra hnot
      exact hup (uploadAt_eq_none_iff.mpr (by simpa using hnot))
    · rw [rewritePath, (PathBuf.stripPrefix_eq_none_iff q src).mpr fun hs => hsrc
        ((PathBuf.startsWith_iff q src).mpr hs)]

/-- The rename keeps an upload from standing below the source of a MOVE queued after it. -/
theorem not_prefix_rewritePath (src dst : PathBuf) {a₀ p : PathBuf} (hbefore : ¬ a₀ <+: p)
    (hnone : ¬ dst <+: p) (hvacant : ∀ suffix ∈ p.stripPrefix src, ¬ a₀ <+: dst ++ suffix) :
    ¬ a₀ <+: rewritePath src dst p ∧ ¬ rewritePath src dst a₀ <+: rewritePath src dst p := by
  obtain ⟨t, rfl, ht⟩ | ⟨hout, ht⟩ := rewritePath_cases src dst p
  · have hkept : ¬ a₀ <+: dst ++ t := hvacant t (PathBuf.stripPrefix_append src t)
    rw [ht]
    refine ⟨hkept, ?_⟩
    obtain ⟨t', rfl, ht'⟩ | ⟨-, ht'⟩ := rewritePath_cases src dst a₀
    · rw [ht', List.prefix_append_right_inj]
      intro hpre
      exact hbefore ((List.prefix_append_right_inj src).mpr hpre)
    · rw [ht']
      exact hkept
  · rw [ht]
    refine ⟨hbefore, ?_⟩
    obtain ⟨t', rfl, ht'⟩ | ⟨-, ht'⟩ := rewritePath_cases src dst a₀
    · rw [ht']
      intro hpre
      exact hnone ((List.prefix_append dst t').trans hpre)
    · rw [ht']
      exact hbefore

/-- The queued operations stay behind the MOVEs that were queued after them. -/
theorem Reads.followRename_behind (h : Reads j n) (hfree : Free j src dst)
    (hfollow : Followed j n src dst) :
    (j.entries.map fun e => (followRename (.rename src dst none m) e).op).Pairwise Behind := by
  have hboth := (List.pairwise_map.mp h.behind).and (List.pairwise_map.mp hfollow.vacant)
  refine List.pairwise_map.mpr (hboth.imp_of_mem ?_)
  rintro e x he hx ⟨hbehind, hvacant⟩ a b s c hmove q hq
  obtain ⟨p, hp, rfl⟩ := h.followRename_isUploadOf hfree hfollow he hq
  obtain ⟨a₀, b₀, hxop, ha⟩ := followRename_rename (h.fixed x hx) hmove
  have hkept := not_prefix_rewritePath src dst (hbehind a₀ b₀ s c hxop p hp)
    (hfollow.no_target hfree he hp) fun suffix hsuffix => by
      have hfrom := hvacant _ (isUploadOf_iff.mp hp) suffix hsuffix
      rw [hxop] at hfrom
      exact (PathBuf.startsWith_eq_false_iff _ _).mp hfrom
  -- the MOVE was rewritten as well, or a worker has it
  obtain rfl | rfl := ha
  · exact hkept.1
  · exact hkept.2

/-- Nothing queued is left below the old name, where the new MOVE takes files from. -/
theorem Reads.followRename_source (h : Reads j n) (hfree : Free j src dst)
    (hfollow : Followed j n src dst) {e : JournalEntry} (he : e ∈ j.entries) {q : PathBuf}
    (hq : (followRename (.rename src dst none m) e).op.isUploadOf q = true) : ¬ src <+: q := by
  obtain ⟨p, -, rfl⟩ := h.followRename_isUploadOf hfree hfollow he hq
  obtain ⟨t, rfl, ht⟩ | ⟨hout, ht⟩ := rewritePath_cases src dst p
  · rw [ht]
    intro hpre
    exact (List.prefix_or_prefix_of_prefix hpre (List.prefix_append dst t)).elim hfree.apart.1
      hfree.apart.2
  · rw [ht]
    exact hout

/-- A rename that the queue can follow: every path reads what the file now there has queued. -/
theorem Reads.rename (h : Reads j n) (hfree : Free j src dst) (hfollow : Followed j n src dst) :
    Reads (j.enqueue (.rename src dst none m)).2 (UserOp.follow n (.record (.rename src dst none m))) := by
  have hentries : (j.enqueue (.rename src dst none m)).2.entries =
      j.entries.map (followRename (.rename src dst none m)) ++
        [{ seq := j.nextSeq, op := .rename src dst none m }] := j.enqueue_entries _
  have hops : (j.enqueue (.rename src dst none m)).2.entries.map (·.op) =
      j.entries.map (fun e => (followRename (.rename src dst none m) e).op) ++ [.rename src dst none m] := by
    rw [hentries, List.map_append, List.map_map]
    rfl
  -- The search, the order of the MOVEs, no copies in between, no entry re-pointed apart.
  refine ⟨fun q => ?_, ?_, ?_, ?_⟩
  · rw [hops, List.reverse_append, ← List.map_reverse, List.reverse_singleton, List.singleton_append]
    -- the MOVE itself comes first, and turns the search at the new name to what was below the old one
    have hpast : newestIn q (.rename src dst none m ::
        j.entries.reverse.map fun e => (followRename (.rename src dst none m) e).op) false =
        newestIn q (j.entries.reverse.map fun e => (followRename (.rename src dst none m) e).op)
          (q.startsWith dst) := by
      simp [newestIn_cons, uploadAt, deletesAt, movesOnto]
    rw [hpast]
    cases hq : q.stripPrefix dst with
    | some suffix =>
      obtain rfl := (PathBuf.stripPrefix_eq_some_iff q dst suffix).mp hq
      have hdst : PathBuf.startsWith (dst ++ suffix) dst = true :=
        (PathBuf.startsWith_iff _ _).mpr (List.prefix_append dst suffix)
      rw [hdst, h.newest_target hfree hfollow]
      simp only [UserOp.follow, hq, PathBuf.join]
    | none =>
      have hdst : ¬ dst <+: q := (PathBuf.stripPrefix_eq_none_iff q dst).mp hq
      rw [(PathBuf.startsWith_eq_false_iff q dst).mpr hdst, h.newest_elsewhere hfree hfollow hdst]
      simp only [UserOp.follow, hq]
  · rw [hops, List.pairwise_append]
    refine ⟨h.followRename_behind hfree hfollow, List.pairwise_singleton _ _, ?_⟩
    intro op hop x hx a b s c hmove q hq
    obtain ⟨e, he, rfl⟩ := List.mem_map.mp hop
    rw [List.mem_singleton.mp hx] at hmove
    cases hmove
    exact h.followRename_source hfree hfollow he hq
  · -- The re-pointed entries are renames where they were before.
    rw [hops]
    intro op hop a b s c hmove
    obtain hop | hop := List.mem_append.mp hop
    · obtain ⟨e, he, rfl⟩ := List.mem_map.mp hop
      obtain ⟨a₀, b₀, heop, -⟩ := followRename_rename (h.fixed e he) hmove
      exact h.copies e.op (List.mem_map_of_mem he) a₀ b₀ s c heop
    · rw [List.mem_singleton.mp hop] at hmove
      cases hmove
      rfl
  · -- Following a rename sets no flag.
    rw [hentries]
    intro e he
    obtain he | he := List.mem_append.mp he
    · obtain ⟨x, hx, rfl⟩ := List.mem_map.mp he
      simp only [followRename]
      split
      · exact h.fixed x hx
      · exact h.fixed x hx
    · rw [List.mem_singleton.mp he]

end Follow

/-- The queue that some of the operations were dropped from. -/
theorem newestIn_without {path : PathBuf} {keep : JournalEntry → Bool} {entries : List JournalEntry}
    (h : ∀ e ∈ entries, keep e = false →
      e.op.uploadAt path = none ∧ e.op.deletesAt path = false ∧ e.op.movesOnto path = false) :
    newestIn path ((entries.filter keep).map (·.op)).reverse false =
      newestIn path (entries.map (·.op)).reverse false := by
  rw [← List.map_reverse, ← List.filter_reverse, ← List.map_reverse]
  exact newestIn_filter (fun e he => h e (List.mem_reverse.mp he)) false

/-- Claiming an entry only marks it. -/
theorem claim_map {β : Type} (j : MutationJournal) (seq : SeqId) {g : JournalEntry → β}
    (hg : ∀ e, g { e with inFlight := true } = g e) :
    (j.claim seq).2.entries.map g = j.entries.map g := by
  unfold claim
  split
  · split
    · rfl
    · unfold modify
      split
      · exact List.map_modify_of_eq hg _ _
      · rfl
  · rfl

/-! ## Whole histories -/

/-- The queue and the user's files. -/
structure History where
  journal : MutationJournal
  newest : Newest

namespace History

/-- A journal with nothing queued. -/
def start : History := { journal := loadOrCreate { files := fun _ => none }, newest := fun _ => none }

/-- The user does one operation: the journal takes it, and so does the history. -/
def step (h : History) (op : UserOp) : History := ⟨op.apply h.journal, op.follow h.newest⟩

/-- The user does them in order. -/
def run (h : History) (ops : List UserOp) : History := ops.foldl step h

/-- Every rename has the property, in the state in which it is made. -/
def Renames (P : History → PathBuf → PathBuf → Prop) : History → List UserOp → Prop
  | _, [] => True
  | h, op :: ops =>
    (∀ src dst s m, op = .record (.rename src dst s m) → s = none ∧ P h src dst) ∧
      Renames P (h.step op) ops

end History

/-- Every operation of the user keeps the queue readable. -/
theorem Reads.step {h : History} {op : UserOp} (hreads : Reads h.journal h.newest)
    (hrename : ∀ src dst s m, op = .record (.rename src dst s m) →
      s = none ∧ Free h.journal src dst ∧ Followed h.journal h.newest src dst) :
    Reads (h.step op).journal (h.step op).newest := by
  -- the search for a path after an operation that coalesces nothing
  have hpush : ∀ op n', (∀ src dst s m, op ≠ .rename src dst s m) →
      (h.journal.coalesceBeforeEnqueue op).entries = h.journal.entries →
      (∀ p, newestIn p (op :: (h.journal.entries.map (·.op)).reverse) false = n' p) →
      Reads (h.journal.enqueue op).2 n' := by
    intro op n' hop hkeep hnewest
    refine hreads.push (fun _ => true) hop ?_ fun p => ?_
    · rw [hkeep, List.filter_true]
    · rw [List.filter_true]
      exact hnewest p
  -- Claiming an entry changes none of the operations.
  cases op with
  | claim seq =>
    have hops : (h.journal.claim seq).2.entries.map (·.op) = h.journal.entries.map (·.op) :=
      claim_map h.journal seq fun _ => rfl
    refine ⟨?_, ?_, ?_, ?_⟩
    · intro p
      exact (congrArg (fun l => newestIn p l.reverse false) hops).trans (hreads.newest p)
    · exact hops ▸ hreads.behind
    · exact hops ▸ hreads.copies
    · intro e he
      have hmem : e.retargeted ∈ (h.journal.claim seq).2.entries.map (·.retargeted) := List.mem_map_of_mem he
      rw [claim_map h.journal seq fun _ => rfl] at hmem
      obtain ⟨x, hx, hxe⟩ := List.mem_map.mp hmem
      exact hxe.symm.trans (hreads.fixed x hx)
  | record op =>
    cases op with
    | rename src dst s m =>
      obtain ⟨rfl, hfree, hfollow⟩ := hrename src dst s m rfl
      exact hreads.rename hfree hfollow
    | put p s m =>
      -- An upload is the newest of its path and of no other.
      refine hpush _ _ (fun _ _ _ _ h => (by cases h)) rfl fun q => ?_
      by_cases hq : p = q
      · subst hq
        simp [newestIn_cons, History.step, UserOp.follow, uploadAt]
      · have hq' : q ≠ p := fun h => hq h.symm
        simp [newestIn_cons, History.step, UserOp.follow, uploadAt, deletesAt, movesOnto, hq, hq',
          hreads.newest q]
    | finishChunked p u i b l t m sp hd w =>
      refine hpush _ _ (fun _ _ _ _ h => (by cases h)) rfl fun q => ?_
      by_cases hq : p = q
      · subst hq
        simp [newestIn_cons, History.step, UserOp.follow, uploadAt]
      · have hq' : q ≠ p := fun h => hq h.symm
        simp [newestIn_cons, History.step, UserOp.follow, uploadAt, deletesAt, movesOnto, hq, hq',
          hreads.newest q]
    | mkDir p =>
      -- A new folder uploads nothing and takes nothing away.
      refine hpush _ _ (fun _ _ _ _ h => (by cases h)) rfl fun q => ?_
      simp [newestIn_cons, History.step, UserOp.follow, uploadAt, deletesAt, movesOnto, hreads.newest q]
    | rmDir p =>
      -- Only a `mkdir` may be folded, which the search does not look at.
      refine hreads.push (fun e => !e.op.isMkDirOf p) (fun _ _ _ _ h => (by cases h)) rfl fun q => ?_
      have hrest : newestIn q ((h.journal.entries.filter fun e => !e.op.isMkDirOf p).map (·.op)).reverse false =
          h.newest q := by
        rw [← hreads.newest q]
        apply newestIn_without
        intro e _ hdrop
        cases hop : e.op <;> simp [hop, isMkDirOf] at hdrop
        exact ⟨rfl, rfl, rfl⟩
      by_cases hq : p <+: q
      · simp [newestIn_cons, History.step, UserOp.follow, uploadAt, deletesAt, hq]
      · simp [newestIn_cons, History.step, UserOp.follow, uploadAt, deletesAt, movesOnto, hq, hrest]
    | unlink p =>
      -- A deleted path has no upload, whatever is behind.
      have hgone : ∀ (rest : List MutationOp) q, newestIn q (.unlink p :: rest) false =
          if p = q then none else newestIn q rest false := by
        intro rest q
        simp [newestIn_cons, uploadAt, deletesAt, movesOnto]
      -- With an earlier version on the server the delete stays beside the upload; else it folds it.
      by_cases hprior : h.journal.entries.any fun e => e.op.hasPriorEtag p
      · refine hpush _ _ (fun _ _ _ _ h => (by cases h)) ?_ fun q => ?_
        · rw [coalesce_unlink_entries, if_pos hprior]
        · rw [hgone, hreads.newest q]
          by_cases hq : p = q
          · simp [History.step, UserOp.follow, hq]
          · have hq' : q ≠ p := fun h => hq h.symm
            simp [History.step, UserOp.follow, hq, hq']
      · refine hreads.push (fun e => !e.op.isUploadOf p && !e.op.isMkDirOf p)
          (fun _ _ _ _ h => (by cases h)) ?_ fun q => ?_
        · rw [coalesce_unlink_entries, if_neg hprior]
        · rw [hgone]
          by_cases hq : p = q
          · simp [History.step, UserOp.follow, hq]
          · have hq' : q ≠ p := fun h => hq h.symm
            simp only [if_neg hq, History.step, UserOp.follow, Function.update_of_ne hq', ← hreads.newest q]
            apply newestIn_without
            intro e _ hdrop
            cases hop : e.op <;> simp [hop, isMkDirOf, isUploadOf] at hdrop <;>
              simp [uploadAt, deletesAt, movesOnto, hdrop, hq]

/-- The rename is one that the queue can follow. -/
def Followable (h : History) (src dst : PathBuf) : Prop :=
  Free h.journal src dst ∧ Followed h.journal h.newest src dst

/-- A whole history keeps the queue readable. -/
theorem Reads.steps {h : History} {ops : List UserOp} (hreads : Reads h.journal h.newest)
    (hrenames : h.Renames Followable ops) : Reads (h.run ops).journal (h.run ops).newest := by
  induction ops generalizing h with
  | nil => exact hreads
  | cons op ops ih => exact ih (hreads.step hrenames.1) hrenames.2

theorem Reads.run {ops : List UserOp} (hrenames : History.start.Renames Followable ops) :
    Reads (History.start.run ops).journal (History.start.run ops).newest := by
  have hstart : Reads History.start.journal History.start.newest :=
    ⟨fun _ => rfl, List.Pairwise.nil, fun _ hop => absurd hop List.not_mem_nil,
      fun _ he => absurd he List.not_mem_nil⟩
  exact hstart.steps hrenames

/-- Saves, deletes and renames of files and folders, some of the uploads held by live workers: while
every rename is one the queue can follow, each path reads the newest queued upload of the file that is
now there, and nothing where there is no such upload. -/
theorem readers_find_newest_upload (ops : List UserOp)
    (hrenames : History.start.Renames
      (fun h src dst => Free h.journal src dst ∧ Followed h.journal h.newest src dst) ops) (p : PathBuf) :
    (History.start.run ops).journal.pendingUpload p = (History.start.run ops).newest p :=
  (Reads.run hrenames).pendingUpload p

/-- A save over a deleted document: the temp file is saved, the document deleted, the temp file renamed. -/
def officeSave : List UserOp :=
  [.record (.put ["lu123.tmp"] ["staging_lo"] none), .record (.unlink ["report.odt"]),
   .record (.rename ["lu123.tmp"] ["report.odt"] none none)]

theorem office_save_is_followed : History.start.Renames
    (fun h src dst => Free h.journal src dst ∧ Followed h.journal h.newest src dst) officeSave := by
  refine ⟨fun _ _ _ _ h => (by cases h), fun _ _ _ _ h => (by cases h), ?_, trivial⟩
  rintro _ _ _ _ ⟨rfl, rfl, rfl, rfl⟩
  exact ⟨rfl, ⟨by decide, by decide⟩, by decide, by decide, by decide, by decide⟩

theorem office_save_is_read :
    (History.start.run officeSave).journal.pendingUpload ["report.odt"] =
      (History.start.run officeSave).newest ["report.odt"] ∧
      (History.start.run officeSave).newest ["report.odt"] = some (.staged ["staging_lo"]) :=
  ⟨readers_find_newest_upload officeSave office_save_is_followed ["report.odt"], by decide⟩

/-- An edited file is put in a document's place after the document was moved to its backup name. -/
def backupSave : List UserOp :=
  [.record (.put ["new.odt"] ["staging_new"] (some "e1")),
   .record (.rename ["report.odt"] ["report.odt~"] none none),
   .record (.rename ["new.odt"] ["report.odt"] none none)]

/-- The backup, which has no upload, is read from the new document's bytes. -/
theorem backup_reads_new_document :
    History.start.Renames (fun h src dst => Free h.journal src dst) backupSave ∧
      (History.start.run backupSave).newest ["report.odt~"] = none ∧
      (History.start.run backupSave).journal.pendingUpload ["report.odt~"] =
        some (.staged ["staging_new"]) := by
  refine ⟨⟨fun _ _ _ _ h => (by cases h), ?_, ?_, trivial⟩, by decide, by decide⟩
  · rintro _ _ _ _ ⟨rfl, rfl, rfl, rfl⟩
    exact ⟨rfl, by decide, by decide⟩
  · rintro _ _ _ _ ⟨rfl, rfl, rfl, rfl⟩
    exact ⟨rfl, by decide, by decide⟩

end MutationJournal

end Ncrs
