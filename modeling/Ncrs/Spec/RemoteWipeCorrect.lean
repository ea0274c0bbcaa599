import Ncrs.Native.RemoteWipe

/-!
# What a confirmed wipe has wiped

The monitor reports a wipe whatever became of it, `execute_wipe` stops at a cache directory it
cannot delete, and it clears credentials line by line while the loader reads YAML. So a report
is true exactly when no file operation failed and every credential of the text is written where
a line starts with its plain key and a colon.

What is used of YAML 1.2 is in `Yaml12`. Entries of a block mapping in column 0 all start in
column 0, and so do the lines the wipe writes, so such a line ends whatever stands before it. It
also takes away what its predecessor held: a document marker behind a carriage return, which ends
a line of YAML and none of `lines`, or an anchor, after which an alias means an older node.

## Key results

- `confirmed_wipe_has_wiped`: under that condition a reported wipe is complete, and for texts of
  one-line entries under no other
- `failed_wipe_is_confirmed`: the cache directory cannot be deleted, the password stays, and the
  server is told that the wipe was a success
-/

namespace Ncrs

/-! ## The condition -/

/-- An entry that gives a credential away. -/
def YamlEntry.Secret (e : YamlEntry) : Prop :=
  e.key ∈ credentialKeys ∧ ∃ v, e.value = .str v ∧ v ≠ ""

/-- The entry starts on a line the wipe takes for its setting. -/
def YamlEntry.Visible (e : YamlEntry) (t : Text) : Prop :=
  ∃ l, (lines t)[e.line]? = some l ∧ startsWithKey e.key l = true

/-- A line the wipe replaces is one line of YAML, and no alias refers to a node on it. -/
def ClearedPlainly (t : Text) (r : YamlRoot) : Prop :=
  ∀ (i : Nat) (l : String), (lines t)[i]? = some l → clearLine l ≠ l →
    '\r' ∉ l.toList ∧ i ∉ r.referred

/-- Every line the wipe replaces is an entry, and it is replaced by one of the same key. -/
def ClearedInPlace (t : Text) (r : YamlRoot) : Prop :=
  ∀ (i : Nat) (l : String), (lines t)[i]? = some l → clearLine l ≠ l →
    ∃ e ∈ r.entries, e.line = i ∧ clearLine l = emptied e.key

/-- Documented behaviour of a YAML 1.2 reader. -/
structure Yaml12 (yaml : YamlLoader) : Prop where
  /-- Keys are unique. -/
  unique : ∀ t r, yaml t = some r → (r.entries.map (·.key)).Nodup
  /-- In a block mapping no two entries start on one line. -/
  apart : ∀ t r, yaml t = some r → r.block = true → ∀ e ∈ r.entries, ∀ e' ∈ r.entries,
    (∀ l, (lines t)[e.line]? = some l → '\r' ∉ l.toList) → e.line = e'.line → e = e'
  /-- An entry that starts on a line `key: ""` is that key with the empty string. -/
  cleared : ∀ t r, yaml t = some r → ∀ e ∈ r.entries, ∀ k ∈ credentialKeys,
    t[e.line]? = some (emptied k) → e.key = k ∧ e.value = .str ""
  /-- Lines `key: ""` put into a block mapping in column 0 end the entry they fall into: they can
      cut its value short, but they make no entry of another line a secret that was none. -/
  stable : ∀ t r r', yaml t = some r → r.block = true ∨ clearText t = lines t →
    ClearedPlainly t r → yaml (clearText t) = some r' → ∀ e' ∈ r'.entries, e'.Secret →
      (clearText t)[e'.line]? = (lines t)[e'.line]? →
      ∃ e ∈ r.entries, e.line = e'.line ∧ e.key = e'.key ∧ e.Secret
  /-- In a block mapping of one-line entries, replacing some by others of the same key keeps the
      rest. -/
  keeps : ∀ t r, yaml t = some r → r.block = true → (∀ e ∈ r.entries, e.alone = true) →
    ClearedPlainly t r → ClearedInPlace t r →
    ∃ r', yaml (clearText t) = some r' ∧ (∀ e' ∈ r'.entries, ∃ e ∈ r.entries, e.key = e'.key) ∧
      ∀ e ∈ r.entries, (clearText t)[e.line]? = (lines t)[e.line]? → e ∈ r'.entries

section

variable (yaml : YamlLoader) (validServer : String → Option String → Bool → Bool)

/-- Loading the text yields no credential. -/
def Harmless (t : Text) : Prop :=
  ∀ c, configurationParser yaml validServer t = some c → c.Blank

/-- Clearing line by line finds every credential of the text: each starts on a line of its own
    with the plain key and its colon, in a block mapping, or no line is taken for a setting. -/
def Clearable (t : Text) : Prop :=
  ∀ r, yaml t = some r → (r.block = true ∨ clearText t = lines t) ∧ ClearedPlainly t r ∧
    ∀ e ∈ r.entries, e.Secret → e.Visible t

/-- The text is a block mapping of one-line entries, and what the wipe takes for a setting is
    one. -/
def OneLine (t : Text) : Prop :=
  ∀ r, yaml t = some r → r.block = true ∧ (∀ e ∈ r.entries, e.alone = true) ∧
    ClearedPlainly t r ∧ ClearedInPlace t r

/-- No file operation of the wipe fails on something there is to delete, and the text it finds
    can be cleared. A text it cannot rewrite has to be harmless as it is. -/
def Deletable (o : WipeOutcomes) (files : WipeFiles) : Prop :=
  (files.cacheDir = none ∨ o.cacheStat = true ∧ o.removeDirAll = none) ∧
  ∀ t, files.config = some t →
    if o.configStat = true ∧ o.readConfig = none then
      match o.writePrivate with
      | .written => Clearable yaml t
      | .notOpened _ => Harmless yaml validServer t
      | .cutShort _ left => Harmless yaml validServer left
    else Harmless yaml validServer t

/-- A reported wipe is complete, and a cache directory that cannot be deleted does not keep the
    wipe from the credentials. -/
def WipedIfConfirmed (checkWipe : Except String Bool) (cacheDir : PathBuf) (o : WipeOutcomes)
    (files : WipeFiles) : Prop :=
  let run := authRejected checkWipe cacheDir o files
  (run.confirmed = true → run.files.cacheDir = none ∧
    ∀ t, run.files.config = some t → Harmless yaml validServer t) ∧
  (run.shutdown = true → files.cacheDir.isSome = true → o.cacheStat = true →
    o.removeDirAll ≠ none → run.attempted = true)

end

/-! ## Clearing a line -/

theorem startsWithKey_cases {l : String} (h : clearLine l ≠ l) :
    ∃ k ∈ credentialKeys, startsWithKey k l = true ∧ clearLine l = emptied k := by
  unfold clearLine at h ⊢
  split at h
  · rename_i hk
    exact ⟨"password", by decide, hk, if_pos hk⟩
  · rename_i hp
    split at h
    · rename_i hk
      exact ⟨"bearer_token", by decide, hk, by rw [if_neg hp, if_pos hk]⟩
    · rename_i hb
      split at h
      · rename_i hk
        exact ⟨"auth_command", by decide, hk, by rw [if_neg hp, if_neg hb, if_pos hk]⟩
      · exact absurd rfl h

/-- A line that starts with a setting is cleared, perhaps to the text it has. -/
theorem clearLine_of_startsWith {l k : String} (hk : k ∈ credentialKeys)
    (h : startsWithKey k l = true) : ∃ k' ∈ credentialKeys, clearLine l = emptied k' := by
  unfold clearLine
  split
  · exact ⟨"password", by decide, rfl⟩
  · rename_i hp
    split
    · exact ⟨"bearer_token", by decide, rfl⟩
    · rename_i hb
      split
      · exact ⟨"auth_command", by decide, rfl⟩
      · rename_i ha
        simp only [credentialKeys, List.mem_cons, List.not_mem_nil, or_false] at hk
        rcases hk with rfl | rfl | rfl
        · exact absurd h hp
        · exact absurd h hb
        · exact absurd h ha

theorem clearText_getElem? (t : Text) (i : Nat) :
    (clearText t)[i]? = ((lines t)[i]?).map clearLine := by
  rw [clearText, List.getElem?_map]

theorem emptied_inj {k k' : String} (h : emptied k = emptied k') : k = k' := by
  have hlist := congrArg String.toList h
  simp only [emptied, String.toList_append] at hlist
  exact String.toList_inj.mp (List.append_cancel_right hlist)

/-! ## Loading and secrets -/

section

variable {yaml : YamlLoader} {validServer : String → Option String → Bool → Bool} {t : Text}
  {r : YamlRoot}

/-- The entry of a key is what `doc[key]` finds. -/
theorem Yaml12.get_eq (hy : Yaml12 yaml) (hr : yaml t = some r) {e : YamlEntry}
    (he : e ∈ r.entries) : r.get e.key = some e.value := by
  have hnodup := hy.unique t r hr
  unfold YamlRoot.get
  cases hfind : r.entries.find? fun x => decide (x.key = e.key) with
  | none =>
    have := List.find?_eq_none.mp hfind e he
    simp at this
  | some x =>
    have hkey : x.key = e.key := by simpa using List.find?_some hfind
    rw [List.inj_on_of_nodup_map hnodup (List.mem_of_find?_eq_some hfind) he hkey]
    rfl

theorem YamlRoot.mem_of_get {key : String} {v : YamlValue} (h : r.get key = some v) :
    ∃ e ∈ r.entries, e.key = key ∧ e.value = v := by
  unfold YamlRoot.get at h
  obtain ⟨e, hfind, hv⟩ := Option.map_eq_some_iff.mp h
  exact ⟨e, List.mem_of_find?_eq_some hfind, by simpa using List.find?_some hfind, hv⟩

/-- What a text that is accepted sets the credentials to. -/
theorem configurationParser_some {c : Credentials}
    (h : configurationParser yaml validServer t = some c) :
    ∃ r, yaml t = some r ∧ c.password = (r.get "password").bind YamlValue.asStr ∧
      c.bearerToken = (r.get "bearer_token").bind YamlValue.asStr ∧
      c.authCommand = (r.get "auth_command").bind YamlValue.asStr := by
  unfold configurationParser at h
  split at h
  · cases h
  · rename_i doc hdoc
    split at h
    · cases h
    · dsimp only at h
      split at h
      · cases h
        exact ⟨doc, hdoc, rfl, rfl, rfl⟩
      · cases h

/-- A setting is blank when no entry of its key is a secret. -/
theorem Yaml12.blank_iff (hy : Yaml12 yaml) (hr : yaml t = some r) {key : String}
    (hkey : key ∈ credentialKeys) :
    ((r.get key).bind YamlValue.asStr).getD "" = "" ↔
      ∀ e ∈ r.entries, e.key = key → ¬ e.Secret := by
  constructor
  · rintro hblank e he rfl ⟨-, v, hv, hne⟩
    rw [hy.get_eq hr he, hv] at hblank
    exact hne hblank
  · intro hno
    cases hget : r.get key with
    | none => rfl
    | some v =>
      obtain ⟨e, he, hek, hev⟩ := YamlRoot.mem_of_get hget
      cases v with
      | str v =>
        by_contra hne
        exact hno e he hek ⟨hek ▸ hkey, v, hev, hne⟩
      | bool b => rfl
      | other => rfl

/-- An accepted text is harmless when it has no secret. -/
theorem Yaml12.harmless_iff (hy : Yaml12 yaml) (hr : yaml t = some r) {c : Credentials}
    (hc : configurationParser yaml validServer t = some c) :
    c.Blank ↔ ∀ e ∈ r.entries, ¬ e.Secret := by
  obtain ⟨r', hr', hp, hb, ha⟩ := configurationParser_some hc
  obtain rfl := Option.some.inj (hr'.symm.trans hr)
  unfold Credentials.Blank
  rw [hp, hb, ha, hy.blank_iff hr (by decide), hy.blank_iff hr (by decide),
    hy.blank_iff hr (by decide)]
  constructor
  · rintro ⟨h₁, h₂, h₃⟩ e he hs
    have hkey := hs.1
    simp only [credentialKeys, List.mem_cons, List.not_mem_nil, or_false] at hkey
    rcases hkey with hk | hk | hk
    · exact h₁ e he hk hs
    · exact h₂ e he hk hs
    · exact h₃ e he hk hs
  · exact fun h => ⟨fun e he _ => h e he, fun e he _ => h e he, fun e he _ => h e he⟩

/-! ## Clearing the text -/

/-- A text that can be cleared line by line is harmless afterwards. -/
theorem Yaml12.harmless_clearText (hy : Yaml12 yaml) (hr : yaml t = some r)
    (h : Clearable yaml t) : Harmless yaml validServer (clearText t) := by
  obtain ⟨hblock, hplain, hvisible⟩ := h r hr
  intro c hc
  obtain ⟨r', hr', -⟩ := configurationParser_some hc
  refine (hy.harmless_iff hr' hc).mpr fun e' he' hs => ?_
  -- Whatever line a secret starts on, that line has been cleared.
  have hcleared : ∃ k ∈ credentialKeys, (clearText t)[e'.line]? = some (emptied k) := by
    by_cases hsame : (clearText t)[e'.line]? = (lines t)[e'.line]?
    · obtain ⟨e, he, hline, hkey, hsec⟩ :=
        hy.stable t r r' hr hblock hplain hr' e' he' hs hsame
      obtain ⟨l, hl, hstart⟩ := hvisible e he hsec
      obtain ⟨k, hk, heq⟩ := clearLine_of_startsWith hsec.1 hstart
      rw [hline] at hl
      exact ⟨k, hk, by rw [clearText_getElem?, hl, Option.map_some, heq]⟩
    · rw [clearText_getElem?] at hsame ⊢
      cases hl : (lines t)[e'.line]? with
      | none => exact absurd (by rw [hl]; rfl) hsame
      | some l =>
        rw [hl, Option.map_some] at hsame
        obtain ⟨k, hk, -, heq⟩ := startsWithKey_cases fun h => hsame (by rw [h])
        exact ⟨k, hk, by rw [Option.map_some, heq]⟩
  obtain ⟨k, hk, hline⟩ := hcleared
  obtain ⟨-, hv⟩ := hy.cleared _ r' hr' e' he' k hk hline
  obtain ⟨-, v, hv', hne⟩ := hs
  rw [hv] at hv'
  exact hne (YamlValue.str.inj hv').symm

/-- An entry of a one-line text whose line changes is the setting the line is cleared to. -/
theorem Yaml12.changed (hy : Yaml12 yaml) (hr : yaml t = some r) (h : OneLine yaml t)
    {e : YamlEntry} (he : e ∈ r.entries)
    (hne : (clearText t)[e.line]? ≠ (lines t)[e.line]?) :
    e.key ∈ credentialKeys ∧ e.Visible t := by
  obtain ⟨hblock, -, hplain, hsetting⟩ := h r hr
  rw [clearText_getElem?] at hne
  cases hl : (lines t)[e.line]? with
  | none => exact absurd (by rw [hl]; rfl) hne
  | some l =>
    rw [hl, Option.map_some] at hne
    have hchange : clearLine l ≠ l := fun h => hne (by rw [h])
    obtain ⟨x, hx, hline, heq⟩ := hsetting e.line l hl hchange
    have hcr : ∀ l', (lines t)[x.line]? = some l' → '\r' ∉ l'.toList := by
      rintro l' hl'
      rw [hline, hl] at hl'
      exact Option.some.inj hl' ▸ (hplain e.line l hl hchange).1
    obtain rfl := hy.apart t r hr hblock x hx e he hcr hline
    obtain ⟨k, hk, hstart, hk'⟩ := startsWithKey_cases hchange
    have hkey : x.key = k := emptied_inj (heq.symm.trans hk')
    exact ⟨hkey ▸ hk, l, hl, hkey ▸ hstart⟩

/-- A one-line text that is harmless once it is cleared could be cleared line by line. -/
theorem Yaml12.clearable_of_harmless (hy : Yaml12 yaml) (h : OneLine yaml t) {c : Credentials}
    (hc : configurationParser yaml validServer t = some c)
    (hharm : Harmless yaml validServer (clearText t)) : Clearable yaml t := by
  intro r hr
  obtain ⟨hblock, halone, hplain, hsetting⟩ := h r hr
  refine ⟨Or.inl hblock, hplain, fun e he hs => ?_⟩
  by_contra hhidden
  obtain ⟨r', hr', hkeys, hkeep⟩ := hy.keeps t r hr hblock halone hplain hsetting
  -- What is no credential is found as before.
  have hget : ∀ key, key ∉ credentialKeys → r'.get key = r.get key := by
    intro key hkey
    cases hold : r.get key with
    | some v =>
      obtain ⟨x, hx, rfl, rfl⟩ := YamlRoot.mem_of_get hold
      refine hy.get_eq hr' (hkeep x hx ?_)
      by_contra hne
      exact hkey (hy.changed hr h hx hne).1
    | none =>
      cases hnew : r'.get key with
      | none => rfl
      | some v =>
        obtain ⟨x', hx', rfl, -⟩ := YamlRoot.mem_of_get hnew
        obtain ⟨x, hx, hxk⟩ := hkeys x' hx'
        have := hy.get_eq hr hx
        rw [hxk, hold] at this
        cases this
  have hmem : e ∈ r'.entries := by
    refine hkeep e he ?_
    by_contra hne
    exact hhidden (hy.changed hr h he hne).2
  -- So the cleared text is accepted as well, with the secret in it.
  have hacc : ∃ c', configurationParser yaml validServer (clearText t) = some c' := by
    unfold configurationParser at hc ⊢
    rw [hr] at hc
    rw [hr']
    dsimp only at hc ⊢
    rw [hget "url" (by decide), hget "username" (by decide),
      hget "allow_insecure_http" (by decide)]
    split at hc
    · cases hc
    · split at hc
      · rename_i hvalid
        rw [if_pos hvalid]
        exact ⟨_, rfl⟩
      · cases hc
  obtain ⟨c', hc'⟩ := hacc
  exact (hy.harmless_iff hr' hc').mp (hharm c' hc') e hmem hs

end

/-! ## The wipe -/

section

variable {yaml : YamlLoader} {validServer : String → Option String → Bool → Bool}
  {o : WipeOutcomes} {files : WipeFiles}

/-- What is left of the configuration is harmless when it could be cleared. -/
theorem Yaml12.clearConfig_harmless (hy : Yaml12 yaml)
    (hacc : ∀ t, files.config = some t → (configurationParser yaml validServer t).isSome)
    (h : Deletable yaml validServer o files) (dir : Option (List PathBuf)) :
    ∀ t, (clearConfig o { files with cacheDir := dir }).files.config = some t →
      Harmless yaml validServer t := by
  intro t ht
  unfold clearConfig at ht
  dsimp only at ht
  split at ht
  · rename_i hnone
    rw [hnone] at ht
    cases ht
  · rename_i content hcontent
    have hcond := h.2 content hcontent
    obtain ⟨c, hc⟩ := Option.isSome_iff_exists.mp (hacc content hcontent)
    obtain ⟨r, hr, -⟩ := configurationParser_some hc
    have hkept : some content = some t → Harmless yaml validServer content →
        Harmless yaml validServer t := by
      rintro heq hcontent
      rwa [← Option.some.inj heq]
    split at ht
    · rename_i hstat
      rw [if_neg (by simpa using fun hs => absurd hs (by simpa using hstat))] at hcond
      exact hkept (hcontent ▸ ht) hcond
    · rename_i hstat
      split at ht
      · rename_i e hread
        rw [if_neg (by rw [hread]; exact fun hx => nomatch hx.2)] at hcond
        exact hkept (hcontent ▸ ht) hcond
      · rename_i hread
        rw [if_pos ⟨by simpa using hstat, hread⟩] at hcond
        split at ht
        · rename_i hwrite
          rw [hwrite] at hcond
          rw [← Option.some.inj ht]
          exact hy.harmless_clearText hr hcond
        · rename_i e hwrite
          rw [hwrite] at hcond
          exact hkept (hcontent ▸ ht) hcond
        · rename_i e left hwrite
          rw [hwrite] at hcond
          rw [← Option.some.inj ht]
          exact hcond

theorem clearConfig_cacheDir (o : WipeOutcomes) (files : WipeFiles) :
    (clearConfig o files).files.cacheDir = files.cacheDir := by
  unfold clearConfig
  split
  · rfl
  · split
    · rfl
    · split
      · rfl
      · split <;> rfl

/-- A wipe gets past the cache directory when it can be deleted or is not there. -/
theorem executeWipe_files (cacheDir : PathBuf)
    (h : files.cacheDir = none ∨ o.cacheStat = true ∧ o.removeDirAll = none) :
    (executeWipe cacheDir o files).files = (clearConfig o { files with cacheDir := none }).files := by
  unfold executeWipe
  rcases h with hnone | ⟨hstat, hremove⟩
  · rw [hnone, if_neg (by simp)]
    congr 2
    cases files
    subst hnone
    rfl
  · split
    · rw [hremove]
    · rename_i hdir
      have hnone : files.cacheDir = none := by
        cases hd : files.cacheDir with
        | none => rfl
        | some d => simp [hd, hstat] at hdir
      congr 2
      cases files
      subst hnone
      rfl

/-- A reported wipe is complete when nothing fails and every credential is written where a line
    starts with its plain key and a colon; among texts of one-line entries only then. -/
theorem confirmed_wipe_has_wiped (yaml : YamlLoader) (hy : Yaml12 yaml)
    (validServer : String → Option String → Bool → Bool) (checkWipe : Except String Bool)
    (cacheDir : PathBuf) (o : WipeOutcomes) (files : WipeFiles)
    (hacc : ∀ t, files.config = some t → (configurationParser yaml validServer t).isSome) :
    ((checkWipe = .ok true → Deletable yaml validServer o files) →
      WipedIfConfirmed yaml validServer checkWipe cacheDir o files) ∧
    ((∀ t, files.config = some t → OneLine yaml t) →
      WipedIfConfirmed yaml validServer checkWipe cacheDir o files →
      checkWipe = .ok true → Deletable yaml validServer o files) := by
  constructor
  · intro h
    unfold WipedIfConfirmed authRejected
    split
    · have h := h rfl
      have hfiles : (executeWipe cacheDir o files).files = _ := executeWipe_files cacheDir h.1
      refine ⟨fun _ => ?_, fun _ hsome hstat hfail => ?_⟩
      · dsimp only
        rw [hfiles]
        exact ⟨clearConfig_cacheDir .., hy.clearConfig_harmless hacc h none⟩
      · rcases h.1 with hnone | ⟨-, hremove⟩
        · rw [hnone] at hsome
          cases hsome
        · exact absurd hremove hfail
    · exact ⟨nofun, nofun⟩
    · exact ⟨nofun, nofun⟩
  · rintro hone ⟨hwiped, -⟩ rfl
    obtain ⟨hgone, hharm⟩ := hwiped rfl
    have hgone : (executeWipe cacheDir o files).files.cacheDir = none := hgone
    have hharm : ∀ t, (executeWipe cacheDir o files).files.config = some t →
      Harmless yaml validServer t := hharm
    -- A cache directory that is still there was not there or could be deleted.
    have hdir : files.cacheDir = none ∨ o.cacheStat = true ∧ o.removeDirAll = none := by
      by_contra hno
      rw [not_or, not_and] at hno
      obtain ⟨hsome, hfail⟩ := hno
      unfold executeWipe at hgone
      split at hgone
      · rename_i hif
        rw [Bool.and_eq_true] at hif
        split at hgone
        · cases hgone
        · rename_i hremove
          exact hfail hif.2 hremove
      · rw [clearConfig_cacheDir] at hgone
        exact hsome hgone
    rw [executeWipe_files cacheDir hdir] at hharm
    refine ⟨hdir, fun t ht => ?_⟩
    obtain ⟨c, hc⟩ := Option.isSome_iff_exists.mp (hacc t ht)
    unfold clearConfig at hharm
    simp only [ht] at hharm
    split
    · rename_i hok
      simp only [hok.1, hok.2, Bool.not_true, Bool.false_eq_true, if_false] at hharm
      cases hwrite : o.writePrivate with
      | written =>
        simp only [hwrite] at hharm
        exact hy.clearable_of_harmless (hone t ht) hc (hharm _ rfl)
      | notOpened e =>
        simp only [hwrite] at hharm
        exact hharm t rfl
      | cutShort e left =>
        simp only [hwrite] at hharm
        exact hharm left rfl
    · rename_i hfail
      cases hstat : o.configStat with
      | false =>
        simp only [hstat, Bool.not_false, if_true] at hharm
        exact hharm t rfl
      | true =>
        cases hread : o.readConfig with
        | none => exact absurd ⟨hstat, hread⟩ hfail
        | some e =>
          simp only [hstat, hread, Bool.not_true, Bool.false_eq_true, if_false] at hharm
          exact hharm t rfl

end

/-! ## A small configuration -/

def demoText : Text := ["url: https://cloud.example", "password: secret"]

/-- The root mapping of `demoText` with this password. -/
def demoRoot (password : String) : YamlRoot where
  block := true
  entries := [⟨0, "url", .str "https://cloud.example", true⟩, ⟨1, "password", .str password, true⟩]
  referred := []

/-- A reader of `demoText` and of what the wipe makes of it. -/
def demoYaml : YamlLoader := fun t =>
  if t = demoText then some (demoRoot "secret")
  else if t = clearText demoText then some (demoRoot "")
  else none

theorem clearText_demoText :
    clearText demoText = ["url: https://cloud.example", "password: \"\""] := by decide

theorem demoYaml_cases {t : Text} {r : YamlRoot} (h : demoYaml t = some r) :
    (t = demoText ∧ r = demoRoot "secret") ∨ (t = clearText demoText ∧ r = demoRoot "") := by
  unfold demoYaml at h
  split at h
  · rename_i ht
    exact Or.inl ⟨ht, (Option.some.inj h).symm⟩
  · split at h
    · rename_i ht
      exact Or.inr ⟨ht, (Option.some.inj h).symm⟩
    · cases h

/-- Clearing either text gives the text without the password. -/
theorem demoYaml_clearText {t : Text} {r : YamlRoot} (h : demoYaml t = some r) :
    demoYaml (clearText t) = some (demoRoot "") := by
  obtain ⟨rfl, -⟩ | ⟨rfl, -⟩ := demoYaml_cases h <;> rw [clearText_demoText] <;> decide

theorem not_secret_demoRoot {e : YamlEntry} (he : e ∈ (demoRoot "").entries) : ¬ e.Secret := by
  rintro ⟨hkey, v, hv, hne⟩
  rcases List.mem_cons.mp he with rfl | he
  · exact absurd hkey (by decide)
  · rw [List.mem_singleton.mp he] at hv
    exact hne (YamlValue.str.inj hv).symm

theorem demoYaml_yaml12 : Yaml12 demoYaml where
  unique t r h := by
    obtain ⟨-, rfl⟩ | ⟨-, rfl⟩ := demoYaml_cases h <;> decide
  apart t r h _ e he e' he' _ hline := by
    have hapart : ∀ x ∈ r.entries, ∀ x' ∈ r.entries, x.line = x'.line → x = x' := by
      obtain ⟨-, rfl⟩ | ⟨-, rfl⟩ := demoYaml_cases h <;> decide
    exact hapart e he e' he' hline
  cleared t r h := by
    obtain ⟨rfl, rfl⟩ | ⟨rfl, rfl⟩ := demoYaml_cases h
    · decide
    · rw [clearText_demoText]
      decide
  stable t r r' h _ _ h' e' he' hs _ := by
    obtain rfl := Option.some.inj ((demoYaml_clearText h).symm.trans h')
    exact absurd hs (not_secret_demoRoot he')
  keeps t r h _ _ _ _ := by
    refine ⟨_, demoYaml_clearText h, ?_⟩
    obtain ⟨rfl, rfl⟩ | ⟨rfl, rfl⟩ := demoYaml_cases h
    · rw [clearText_demoText]
      decide
    · rw [clearText_demoText]
      decide

/-- The cache directory and the password of a small configuration are wiped. -/
theorem small_configuration_is_wiped :
    WipedIfConfirmed demoYaml (fun _ _ _ => true) (.ok true) ["cache"] {}
      { cacheDir := some [["kept"]], config := some demoText } := by
  refine (confirmed_wipe_has_wiped demoYaml demoYaml_yaml12 (fun _ _ _ => true) (.ok true) ["cache"]
    {} { cacheDir := some [["kept"]], config := some demoText } ?_).1 fun _ => ⟨Or.inr ⟨rfl, rfl⟩, ?_⟩
  · intro t ht
    rw [← Option.some.inj ht]
    rfl
  · intro t ht
    rw [← Option.some.inj ht]
    show Clearable demoYaml demoText
    intro r hr
    obtain rfl : demoRoot "secret" = r := Option.some.inj hr
    refine ⟨Or.inl rfl, fun i l hl _ => ⟨?_, List.not_mem_nil⟩, fun e he hs => ?_⟩
    · have hall : ∀ l ∈ demoText, '\r' ∉ l.toList := by decide
      exact hall l (List.mem_of_getElem? hl)
    · rcases List.mem_cons.mp he with rfl | he
      · exact absurd hs.1 (by decide)
      · rw [List.mem_singleton.mp he]
        exact ⟨"password: secret", rfl, by decide⟩

/-- The cache directory cannot be deleted: it stays, and so does the password, which the wipe did
    not get to, and the server is told that the wipe was a success. -/
theorem failed_wipe_is_confirmed :
    ¬ WipedIfConfirmed demoYaml (fun _ _ _ => true) (.ok true) ["cache"]
      { removeDirAll := some ("Permission denied (os error 13)", [["kept"]]) }
      { cacheDir := some [["kept"]], config := some demoText } := by
  rintro ⟨hwiped, -⟩
  cases (hwiped rfl).1

end Ncrs
