import Ncrs.Native.ConfigFile
import Ncrs.Spec.LoginFlowCorrect

/-!
# Saving the settings

The file that is written is a flat YAML document, so what is read back from it is known: the settings,
and of the rest what is carried over. An option that is not carried over is lost, a missing user name
becomes an empty one and an empty password none. Rust writes a character that it does not print as
`\u` with braces, which is no YAML, and a number from 2^63 on is not read back as one. A file that
cannot be read or is not accepted is written over with an empty account.

## Key results

- `text_flatLines`, `read_flatLines`: the file as a flat document, and what it says.
- `optionsOf_written`: the options read back.
- `rewrite_saves_only_settings_iff`: when saving changes the settings and nothing else.
- `saving_locks_out`: an account that is not reachable after saving.
-/

namespace Ncrs

namespace Config

open FlatYaml (Doc Reader Value QuotedPart Scalar FlatLine docOf)

variable {printable : Char → Bool}

/-! ## The written file as a flat document -/

/-- What `{:?}` writes for a character, as YAML reads it. -/
def quotedParts (printable : Char → Bool) (c : Char) : List QuotedPart :=
  match escapeLetter c with
  | some l => [.escape l]
  | none =>
    if isPrintable printable c then [.raw c]
    else .notHex '\x7b' :: (Nat.toDigits 16 c.toNat ++ ['\x7d']).map .raw

/-- A string between double quotes, as `{:?}` writes it. -/
def quoted (printable : Char → Bool) (s : Line) : Scalar := .quoted (s.flatMap (quotedParts printable))

/-- The values of `settingValues`. -/
def settingScalars (s : ConfigSettings) : List (String × Scalar) := [
  ("aggressive_prefetch", .bool s.aggressivePrefetch),
  ("http3", .bool s.http3),
  ("max_concurrent_requests", .nat s.maxConcurrentRequests),
  ("optimistic_listing", .bool s.optimisticListing),
  ("dir_cache_max_stale_mins", .nat s.dirCacheMaxStaleMins),
  ("dir_cache_max_dirs", .nat s.dirCacheMaxDirs),
  ("auto_keep_locally_modified_files", .bool s.autoKeepLocallyModifiedFiles),
  ("auto_keep_cached_files", .bool s.autoKeepCachedFiles),
  ("read_ahead_bytes", .nat s.readAheadBytes),
  ("cache_max_size_bytes", .nat s.cacheMaxSizeBytes),
  ("cache_auto_purge_days", .nat s.cacheAutoPurgeDays),
  ("cache_cleanup_interval_secs", .nat s.cacheCleanupIntervalSecs),
  ("cache_streamed_reads", .bool s.cacheStreamedReads),
  ("cleanup_stale_gio_temps", .bool s.cleanupStaleGioTemps),
  ("stale_gio_temp_mins", .nat s.staleGioTempMins),
  ("fuse_passthrough", .bool s.fusePassthrough),
  ("walker_rate_limit", .bool s.walkerRateLimit),
  ("walker_listings_per_sec", .nat s.walkerListingsPerSec),
  ("stream_uploads", .bool s.streamUploads),
  ("stream_upload_threshold_mb", .nat s.streamUploadThresholdMb),
  ("stream_disk_reserve_mb", .nat s.streamDiskReserveMb),
  ("honor_server_locks", .bool s.honorServerLocks),
  ("app_lock_files", .bool s.appLockFiles)]

/-- The line of a field that is written only where it has a value. -/
def optionalEntry (printable : Char → Bool) (key : String) (value : Option Line) : List FlatLine :=
  (value.map fun v => .entry key (quoted printable v)).toList

def commentLine (s : String) : FlatLine := .comment s.toList

/-- The lines of the settings, with their comments. -/
def settingLines (s : ConfigSettings) : List FlatLine :=
  (settingScalars s).flatMap fun x => (settingComment x.1).map commentLine ++ [.entry x.1 x.2]

/-- The lines of the file that `rewrite_config_settings` writes. -/
def flatLines (printable : Char → Bool) (c : Carried) (s : ConfigSettings) : List FlatLine :=
  [commentLine "# ncRS Desktop configuration", .comment [], .entry "url" (quoted printable c.url),
    .entry "username" (quoted printable c.username)] ++ optionalEntry printable "password" c.password ++
    optionalEntry printable "bearer_token" c.bearerToken ++ optionalEntry printable "auth_command"
      c.authCommand ++
    [.entry "mount_point" (quoted printable s.mountPoint), .entry "user" (quoted printable c.logUser),
      .comment []] ++
    settingLines s

/-- A character is written by the parts it is cut into. -/
theorem text_quotedParts (c : Char) :
    (quotedParts printable c).flatMap QuotedPart.text = escapeDebug printable c := by
  unfold quotedParts escapeDebug
  cases escapeLetter c with
  | some l => rfl
  | none =>
    cases isPrintable printable c with
    | true => rfl
    | false => simp [QuotedPart.text, List.flatMap_map]

/-- The quoted scalar is the text that `{:?}` writes. -/
theorem text_quoted (s : Line) : (quoted printable s).text = debug printable s := by
  simp only [quoted, Scalar.text, debug, List.flatMap_assoc, text_quotedParts]

theorem settingValues_eq (s : ConfigSettings) :
    settingValues s = (settingScalars s).map fun x => (x.1, x.2.text) := rfl

theorem text_optionalEntry (key : String) (value : Option Line) :
    (optionalEntry printable key value).map FlatLine.text = optionalLine printable key value := by
  cases value with
  | none => rfl
  | some v => simp [optionalEntry, optionalLine, FlatLine.text, line, text_quoted]

/-- The lines make up the file's text. -/
theorem text_flatLines (c : Carried) (s : ConfigSettings) :
    FlatYaml.text (flatLines printable c s) = configText printable c s := by
  have hlines : (flatLines printable c s).map FlatLine.text = configLines printable c s := by
    have hsettings : (settingLines s).map FlatLine.text =
        (settingValues s).flatMap fun x => (settingComment x.1).map String.toList ++ [line x.1 x.2] := by
      rw [settingValues_eq, settingLines, List.flatMap_map, List.map_flatMap]
      refine List.flatMap_congr fun x _ => ?_
      simp [FlatLine.text, line, commentLine, Function.comp_def]
    simp only [flatLines, configLines, List.map_append, text_optionalEntry, hsettings]
    simp [FlatLine.text, line, text_quoted, commentLine]
  rw [FlatYaml.text, configText, ← hlines, List.flatMap_map]

/-! ## It is well-formed -/

/-- The keys of the settings section, in the order in which they are written. -/
def settingKeys : List String :=
  ["aggressive_prefetch", "http3", "max_concurrent_requests", "optimistic_listing",
    "dir_cache_max_stale_mins", "dir_cache_max_dirs", "auto_keep_locally_modified_files",
    "auto_keep_cached_files", "read_ahead_bytes", "cache_max_size_bytes", "cache_auto_purge_days",
    "cache_cleanup_interval_secs", "cache_streamed_reads", "cleanup_stale_gio_temps",
    "stale_gio_temp_mins", "fuse_passthrough", "walker_rate_limit", "walker_listings_per_sec",
    "stream_uploads", "stream_upload_threshold_mb", "stream_disk_reserve_mb", "honor_server_locks",
    "app_lock_files"]

/-- The keys a file may have, in order. -/
def configKeys : List String :=
  ["url", "username", "password", "bearer_token", "auth_command", "mount_point", "user"] ++ settingKeys

theorem map_fst_settingScalars (s : ConfigSettings) : (settingScalars s).map (·.1) = settingKeys := rfl

/-- One line of a comment. -/
def isComment : Line → Bool
  | '#' :: t => t.all FlatYaml.isLineChar
  | _ => false

/-- What passes for a comment is a well formed line. -/
theorem wellFormed_of_isComment {t : Line} (h : isComment t = true) : FlatLine.WellFormed (.comment t) := by
  unfold isComment at h
  split at h
  · rename_i t
    refine ⟨?_, .inr rfl⟩
    rw [List.all_cons, h, Bool.and_true]
    decide
  · cases h

theorem isComment_ofList {t : Line} (h : isComment t = true) : isComment (String.ofList t).toList = true := by
  rw [String.toList_ofList, h]

/-- The comments above a setting are well formed. -/
theorem settingComment_wellFormed (key : String) :
    ∀ t ∈ settingComment key, (commentLine t).WellFormed := by
  have hall : (settingComment key).all (fun t => isComment t.toList) = true := by
    unfold settingComment
    split
    all_goals simp only [List.all_cons, List.all_nil, Bool.and_true, Bool.and_eq_true]
    all_goals repeat' apply And.intro
    -- the characters of a literal, not what `toList` computes of it
    all_goals exact isComment_ofList rfl
  exact fun t ht => wellFormed_of_isComment (List.all_eq_true.mp hall t ht)

/-- The short escapes that are written are those that YAML reads back as the same character. -/
theorem oneCharEscape_escapeLetter {c l : Char} (h : escapeLetter c = some l) :
    FlatYaml.oneCharEscape l = some c := by
  unfold escapeLetter at h
  split at h
  · -- one case for each letter of `escapeLetter`
    rename_i hc
    rw [← Option.some.inj h, hc]
    decide
  split at h
  · rename_i hc
    rw [← Option.some.inj h, hc]
    decide
  split at h
  · rename_i hc
    rw [← Option.some.inj h, hc]
    decide
  split at h
  · rename_i hc
    rw [← Option.some.inj h, hc]
    decide
  split at h
  · -- a quote and a backslash are escaped by themselves
    rename_i hc
    rw [← Option.some.inj h]
    simp only [Bool.or_eq_true, decide_eq_true_iff] at hc
    obtain rfl | rfl := hc <;> decide
  · cases h

/-- A printable character that has no escape can stand as it is. -/
theorem isPlain_of_isPrintable {c : Char} (hl : escapeLetter c = none) (hc : isPrintable printable c = true) :
    QuotedPart.isPlain c = true := by
  have hne : c ≠ '"' ∧ c ≠ '\\' := by
    constructor <;> rintro rfl <;> exact absurd hl (by decide)
  have hline : FlatYaml.isLineChar c = true := by
    unfold isPrintable at hc
    unfold FlatYaml.isLineChar
    dsimp only at hc ⊢
    split at hc
    · simp only [Bool.and_eq_true, decide_eq_true_iff] at hc
      simp only [Bool.or_eq_true, Bool.and_eq_true, decide_eq_true_iff]
      exact .inl ⟨hc.1, by omega⟩
    · rw [Bool.and_eq_true] at hc
      rw [hc.1, Bool.or_true]
  simp [QuotedPart.isPlain, hline, hne]

/-- Hexadecimal digits can stand as they are. -/
theorem isPlain_of_mem_toDigits {n : Nat} {c : Char} (hc : c ∈ Nat.toDigits 16 n) :
    QuotedPart.isPlain c = true := by
  have hdigit : ∀ k < 16, QuotedPart.isPlain (Nat.digitChar k) = true := by decide
  induction n using Nat.strongRecOn with
  | ind n ih =>
    rw [Nat.toDigits_eq_if (by decide)] at hc
    split at hc
    · rename_i hn
      rw [List.mem_singleton.mp hc]
      exact hdigit n hn
    · obtain hc | hc := List.mem_append.mp hc
      · exact ih (n / 16) (by omega) hc
      · rw [List.mem_singleton.mp hc]
        exact hdigit _ (Nat.mod_lt _ (by decide))

/-- The parts that a character is cut into are well formed. -/
theorem wellFormed_quotedParts {c : Char} : ∀ p ∈ quotedParts printable c, p.WellFormed := by
  intro p hp
  unfold quotedParts at hp
  split at hp
  · rename_i l hl
    rw [List.mem_singleton.mp hp]
    exact Option.isSome_iff_exists.mpr ⟨c, oneCharEscape_escapeLetter hl⟩
  · rename_i hl
    split at hp
    · rename_i hc
      rw [List.mem_singleton.mp hp]
      exact isPlain_of_isPrintable hl hc
    · obtain rfl | hp := List.mem_cons.mp hp
      · exact ⟨by decide, by decide⟩
      · obtain ⟨d, hd, rfl⟩ := List.mem_map.mp hp
        obtain hd | hd := List.mem_append.mp hd
        · exact isPlain_of_mem_toDigits hd
        · rw [List.mem_singleton.mp hd]
          exact (by decide : QuotedPart.isPlain '\x7d' = true)

theorem wellFormed_quoted (s : Line) : (quoted printable s).WellFormed := by
  intro p hp
  obtain ⟨c, -, hp⟩ := List.mem_flatMap.mp hp
  exact wellFormed_quotedParts p hp

theorem wellFormed_settingScalars (s : ConfigSettings) : ∀ x ∈ settingScalars s, x.2.WellFormed := by
  simp only [settingScalars, List.mem_cons, List.not_mem_nil, or_false]
  rintro x (rfl | rfl | rfl | rfl | rfl | rfl | rfl | rfl | rfl | rfl | rfl | rfl | rfl | rfl | rfl
    | rfl | rfl |
    rfl | rfl | rfl | rfl | rfl | rfl)
  all_goals trivial

/-- The keys of the file are plain YAML keys. -/
theorem isKey_of_mem_configKeys {key : String} (h : key ∈ configKeys) : FlatYaml.IsKey key := by
  have hall : configKeys.all (fun key => key.toList.head?.any Char.isLower &&
    key.toList.all FlatYaml.isKeyChar &&
      key.toList.length < 1024 && key ≠ "true" && key ≠ "false" && key ≠ "null") = true := by decide
  have := List.all_eq_true.mp hall key h
  simp only [Bool.and_eq_true, decide_eq_true_iff] at this
  exact ⟨this.1.1.1.1.1, this.1.1.1.1.2, this.1.1.1.2, this.1.1.2, this.1.2, this.2⟩

/-- The settings section has each of its keys once. -/
theorem filterMap_key?_settingLines (s : ConfigSettings) :
    (settingLines s).filterMap FlatLine.key? = settingKeys := by
  have hcomment : ∀ key, ((settingComment key).map commentLine).filterMap FlatLine.key? = [] := by
    intro key
    rw [List.filterMap_eq_nil_iff]
    intro l hl
    obtain ⟨t, -, rfl⟩ := List.mem_map.mp hl
    rfl
  rw [settingLines, List.filterMap_flatMap, ← map_fst_settingScalars s, List.map_eq_flatMap]
  refine List.flatMap_congr fun x _ => ?_
  rw [List.filterMap_append, hcomment, List.nil_append]
  rfl

/-- The file has no key twice, since its keys are in the order of `configKeys`. -/
theorem filterMap_key?_flatLines (c : Carried) (s : ConfigSettings) :
    ((flatLines printable c s).filterMap FlatLine.key?).Sublist configKeys := by
  have hoption : ∀ (key : String) (value : Option Line),
      ((optionalEntry printable key value).filterMap FlatLine.key?).Sublist [key] := by
    intro key value
    cases value with
    | none => exact List.nil_sublist _
    | some v => exact List.Sublist.refl _
  have hsettings : ((settingLines s).filterMap FlatLine.key?).Sublist settingKeys := by
    rw [filterMap_key?_settingLines]
  simp only [flatLines, List.filterMap_append]
  exact (((((List.Sublist.refl ["url", "username"]).append (hoption "password" _)).append
    (hoption "bearer_token" _)).append (hoption "auth_command" _)).append
    (List.Sublist.refl ["mount_point", "user"])).append hsettings

/-- Every line of the file is well formed. -/
theorem wellFormed_flatLines (c : Carried) (s : ConfigSettings) :
    ∀ l ∈ flatLines printable c s, (∀ t, l = .comment t → l.WellFormed) ∧
      ∀ key value, l = .entry key value → value.WellFormed := by
  have hentry : ∀ (key : String) (v : Scalar), v.WellFormed → ∀ l : FlatLine, l = .entry key v →
      (∀ t, l = .comment t → l.WellFormed) ∧ ∀ key value, l = .entry key value → value.WellFormed := by
    rintro key v hv l rfl
    refine ⟨nofun, fun key' value h => ?_⟩
    cases h
    exact hv
  have hcomment : ∀ l : FlatLine, l.WellFormed → l.key? = none →
      (∀ t, l = .comment t → l.WellFormed) ∧ ∀ key value, l = .entry key value → value.WellFormed := by
    intro l hl hkey
    refine ⟨fun _ _ => hl, fun key value h => ?_⟩
    rw [h] at hkey
    cases hkey
  -- the optional fields have a line or none
  have hoption : ∀ (key : String) (value : Option Line), ∀ l ∈ optionalEntry printable key value,
      (∀ t, l = .comment t → l.WellFormed) ∧ ∀ key value, l = .entry key value → value.WellFormed := by
    intro key value l hl
    cases value with
    | none => cases hl
    | some v => exact hentry key _ (wellFormed_quoted v) l (List.mem_singleton.mp hl)
  have hblank : FlatLine.WellFormed (.comment []) := ⟨rfl, .inl rfl⟩
  intro l hl
  simp only [flatLines, List.mem_append, List.mem_cons, List.not_mem_nil, or_false] at hl
  obtain (((((rfl | rfl | hl | hl) | hl) | hl) | hl) | (hl | hl | rfl)) | hl := hl
  · exact hcomment _ (wellFormed_of_isComment (isComment_ofList rfl)) rfl
  · exact hcomment _ hblank rfl
  · exact hentry _ _ (wellFormed_quoted _) l hl
  · exact hentry _ _ (wellFormed_quoted _) l hl
  · exact hoption _ _ l hl
  · exact hoption _ _ l hl
  · exact hoption _ _ l hl
  · exact hentry _ _ (wellFormed_quoted _) l hl
  · exact hentry _ _ (wellFormed_quoted _) l hl
  · exact hcomment _ hblank rfl
  · obtain ⟨x, hx, hl⟩ := List.mem_flatMap.mp hl
    obtain hl | hl := List.mem_append.mp hl
    · obtain ⟨t, ht, rfl⟩ := List.mem_map.mp hl
      exact hcomment _ (settingComment_wellFormed _ t ht) rfl
    · exact hentry _ _ (wellFormed_settingScalars s x hx) l (List.mem_singleton.mp hl)

/-- The file that is written is a flat mapping. -/
theorem flat_flatLines (c : Carried) (s : ConfigSettings) : FlatYaml.Flat (flatLines printable c s) := by
  have hkeys := @filterMap_key?_flatLines printable c s
  refine ⟨fun l hl => ?_, hkeys.nodup (by simp [configKeys, settingKeys]), ?_⟩
  · obtain ⟨hcomment, hentry⟩ := wellFormed_flatLines c s l hl
    cases l with
    | comment t => exact hcomment t rfl
    | entry key value =>
      exact ⟨isKey_of_mem_configKeys (hkeys.subset (List.mem_filterMap.mpr ⟨_, hl, rfl⟩)), hentry key value rfl⟩
  · have hmem : "url" ∈ (flatLines printable c s).filterMap FlatLine.key? :=
      List.mem_filterMap.mpr ⟨.entry "url" (quoted printable c.url), by simp [flatLines], rfl⟩
    exact List.ne_nil_of_mem hmem

/-! ## What it says -/

/-- `{:?}` writes the character as YAML reads it. -/
def IsWritten (printable : Char → Bool) (c : Char) : Prop :=
  (escapeLetter c).isSome ∨ isPrintable printable c = true

/-- No character of the text is written as `\u` with braces. -/
def Written (printable : Char → Bool) (s : Line) : Prop := ∀ c ∈ s, IsWritten printable c

instance (printable : Char → Bool) (c : Char) : Decidable (IsWritten printable c) :=
  inferInstanceAs (Decidable (_ ∨ _))

instance (printable : Char → Bool) (s : Line) : Decidable (Written printable s) :=
  decidable_of_iff ((s.all fun c => decide (IsWritten printable c)) = true) (by simp [Written])

/-- A character can be read back when none of the parts that it is cut into is refused. -/
theorem all_quotedParts (c : Char) :
    (quotedParts printable c).all (fun p => p.value.isSome) = true ↔ IsWritten printable c := by
  unfold quotedParts IsWritten
  cases hl : escapeLetter c with
  | some l =>
    have hvalue : (QuotedPart.escape l).value = some c := oneCharEscape_escapeLetter hl
    simp [hvalue]
  | none => cases isPrintable printable c <;> simp [QuotedPart.value]

/-- And it is read as itself. -/
theorem filterMap_quotedParts {c : Char} (hc : IsWritten printable c) :
    (quotedParts printable c).filterMap QuotedPart.value = [c] := by
  unfold quotedParts
  cases hl : escapeLetter c with
  | some l =>
    have hvalue : (QuotedPart.escape l).value = some c := oneCharEscape_escapeLetter hl
    simp [hvalue]
  | none =>
    have hprint : isPrintable printable c = true := by simpa [IsWritten, hl] using hc
    simp [hprint, QuotedPart.value]

/-- A quoted string is read back exactly when all its characters are. -/
theorem value_quoted (s : Line) :
    (quoted printable s).value = if Written printable s then some (.str s) else none := by
  have hall : (s.flatMap (quotedParts printable)).all (fun p => p.value.isSome) = true ↔
    Written printable s := by
    rw [List.all_flatMap, List.all_eq_true]
    exact forall₂_congr fun c _ => all_quotedParts c
  simp only [quoted, Scalar.value, hall]
  by_cases hs : Written printable s
  · have hvalue : (s.flatMap (quotedParts printable)).filterMap QuotedPart.value = s := by
      rw [List.filterMap_flatMap, List.flatMap_congr fun c hc => filterMap_quotedParts (hs c hc)]
      simp
    rw [if_pos hs, if_pos hs, hvalue]
  · rw [if_neg hs, if_neg hs]

/-- The pairs that an optional field is read back as. -/
def optionalString (key : String) (value : Option Line) : List (String × Value) :=
  (value.map fun v => (key, Value.str v)).toList

/-- The entries of the file. -/
def entries (c : Carried) (s : ConfigSettings) : List (String × Value) :=
  [("url", .str c.url), ("username", .str c.username)] ++ optionalString "password" c.password ++
    optionalString "bearer_token" c.bearerToken ++ optionalString "auth_command" c.authCommand ++
    [("mount_point", .str s.mountPoint), ("user", .str c.logUser)] ++
    (settingScalars s).map fun x => (x.1, x.2.value.getD .other)

/-- The strings the file holds. -/
def fileStrings (c : Carried) (s : ConfigSettings) : List Line :=
  [c.url, c.username] ++ c.password.toList ++ c.bearerToken.toList ++ c.authCommand.toList ++
    [s.mountPoint, c.logUser]

theorem readable_quoted (key : String) (v : Line) :
    FlatLine.readable (.entry key (quoted printable v)) = true ↔ Written printable v := by
  rw [FlatLine.readable, value_quoted]
  split <;> simp [*]

theorem entry?_quoted (key : String) {v : Line} (hv : Written printable v) :
    FlatLine.entry? (.entry key (quoted printable v)) = some (key, .str v) := by
  rw [FlatLine.entry?, value_quoted, if_pos hv, Option.map_some]

theorem all_readable_optionalEntry (key : String) (value : Option Line) :
    (optionalEntry printable key value).all FlatLine.readable = true ↔ ∀ v ∈ value.toList,
    Written printable v := by
  cases value with
  | none => simp [optionalEntry]
  | some v => simp [optionalEntry, readable_quoted]

theorem filterMap_entry?_optionalEntry (key : String) {value : Option Line}
    (h : ∀ v ∈ value.toList, Written printable v) :
    (optionalEntry printable key value).filterMap FlatLine.entry? = optionalString key value := by
  cases value with
  | none => rfl
  | some v =>
    have hv := entry?_quoted key (h v (by simp))
    simp [optionalEntry, optionalString, hv]

/-- No value of the settings section is refused. -/
theorem value_settingScalars (s : ConfigSettings) : ∀ x ∈ settingScalars s, x.2.value.isSome := by
  simp only [settingScalars, List.mem_cons, List.not_mem_nil, or_false]
  rintro x (rfl | rfl | rfl | rfl | rfl | rfl | rfl | rfl | rfl | rfl | rfl | rfl | rfl | rfl | rfl
    | rfl | rfl |
    rfl | rfl | rfl | rfl | rfl | rfl)
  all_goals rfl

/-- The settings section is read back whole: its comments give nothing. -/
theorem read_settingLines (s : ConfigSettings) :
    (settingLines s).all FlatLine.readable = true ∧
      (settingLines s).filterMap FlatLine.entry? = (settingScalars s).map fun x =>
        (x.1, x.2.value.getD .other) := by
  constructor
  · rw [settingLines, List.all_flatMap, List.all_eq_true]
    intro x hx
    rw [List.all_append, List.all_map]
    simp [FlatLine.readable, commentLine, Function.comp_def, value_settingScalars s x hx]
  · -- a comment has no entry, so that only the values remain
    have hcomment : ∀ key, ((settingComment key).map commentLine).filterMap FlatLine.entry? = [] := by
      intro key
      rw [List.filterMap_eq_nil_iff]
      intro l hl
      obtain ⟨t, -, rfl⟩ := List.mem_map.mp hl
      rfl
    rw [settingLines, List.filterMap_flatMap, List.map_eq_flatMap]
    refine List.flatMap_congr fun x hx => ?_
    obtain ⟨v, hv⟩ := Option.isSome_iff_exists.mp (value_settingScalars s x hx)
    rw [List.filterMap_append, hcomment, List.nil_append]
    simp [FlatLine.entry?, hv]

/-- The file is read if all its strings are written the way YAML reads them. -/
theorem read_flatLines (c : Carried) (s : ConfigSettings) :
    FlatYaml.read (flatLines printable c s) =
      if ∀ v ∈ fileStrings c s, Written printable v then some (docOf (entries c s)) else none := by
  have hall : (flatLines printable c s).all FlatLine.readable = true ↔ ∀ v ∈ fileStrings c s,
    Written printable v := by
    simp only [flatLines, fileStrings, List.all_append, Bool.and_eq_true, all_readable_optionalEntry,
      (read_settingLines s).1, List.forall_mem_append, List.all_cons, List.all_nil, readable_quoted]
    simp [FlatLine.readable, commentLine]
  simp only [FlatYaml.read, hall]
  split
  · -- the fields in front of the settings and behind them, one by one
    rename_i h
    simp only [fileStrings, List.forall_mem_append] at h
    obtain ⟨⟨⟨⟨hhead, hpassword⟩, hbearer⟩, hcommand⟩, htail⟩ := h
    have hurl := entry?_quoted "url" (hhead c.url (by simp))
    have husername := entry?_quoted "username" (hhead c.username (by simp))
    have hmount := entry?_quoted "mount_point" (htail s.mountPoint (by simp))
    have huser := entry?_quoted "user" (htail c.logUser (by simp))
    have hfirst : [commentLine "# ncRS Desktop configuration", .comment [],
      .entry "url" (quoted printable c.url),
        .entry "username" (quoted printable c.username)].filterMap FlatLine.entry? =
        [("url", .str c.url), ("username", .str c.username)] := by
      rw [List.filterMap_cons_none rfl, List.filterMap_cons_none rfl, List.filterMap_cons_some hurl,
        List.filterMap_cons_some husername, List.filterMap_nil]
    have hlast : [.entry "mount_point" (quoted printable s.mountPoint),
      .entry "user" (quoted printable c.logUser),
        .comment []].filterMap FlatLine.entry? =
        [("mount_point", .str s.mountPoint), ("user", .str c.logUser)] := by
      rw [List.filterMap_cons_some hmount, List.filterMap_cons_some huser, List.filterMap_cons_none rfl,
        List.filterMap_nil]
    simp only [flatLines, entries, List.filterMap_append, filterMap_entry?_optionalEntry _ hpassword,
      filterMap_entry?_optionalEntry _ hbearer, filterMap_entry?_optionalEntry _ hcommand,
        (read_settingLines s).2,
      hfirst, hlast]
  · rfl

/-- A number as it is read back. -/
def readNat (n : Nat) : Option Int := if n < 2 ^ 63 then some n else none

/-- The options of the written file, if its server is accepted. -/
def readBack (k : PercentEncoding.Coder) (c : Carried) (s : ConfigSettings) : MountOptions where
  url := normalizeWebdavUrl k c.url c.username
  username := some c.username
  password := c.password
  bearerToken := c.bearerToken
  authCommand := c.authCommand
  mountPoint := s.mountPoint
  logUser := c.logUser
  aggressivePrefetch := s.aggressivePrefetch
  http3 := s.http3
  maxConcurrentRequests := asU64 ((readNat s.maxConcurrentRequests).getD 10)
  optimisticListing := s.optimisticListing
  dirCacheMaxStaleMins := ((readNat s.dirCacheMaxStaleMins).map (fun v => (max v 0).toNat)).getD 15
  dirCacheMaxDirs := ((readNat s.dirCacheMaxDirs).map (fun v => (max v 0).toNat)).getD 5000
  autoKeepLocallyModifiedFiles := s.autoKeepLocallyModifiedFiles
  autoKeepCachedFiles := s.autoKeepCachedFiles
  readAheadBytes := ((readNat s.readAheadBytes).map asU64).getD (64 * 1024 * 1024)
  cacheStreamedReads := s.cacheStreamedReads
  cacheMaxSizeBytes := ((readNat s.cacheMaxSizeBytes).map asU64).getD (32 * 1024 * 1024 * 1024)
  cacheAutoPurgeDays := ((readNat s.cacheAutoPurgeDays).map asU32).getD 10
  cacheCleanupIntervalSecs := ((readNat s.cacheCleanupIntervalSecs).map asU64).getD 3600
  keepPaths := []
  excludeFolders := []
  cleanupStaleGioTemps := s.cleanupStaleGioTemps
  staleGioTempMins := ((readNat s.staleGioTempMins).map asU64).getD 10
  fusePassthrough := s.fusePassthrough
  allowInsecureHttp := false
  walkerRateLimit := s.walkerRateLimit
  walkerListingsPerSec := ((readNat s.walkerListingsPerSec).map (fun v => (max 1 (min v 1000)).toNat)).getD 10
  streamUploads := s.streamUploads
  streamUploadThresholdMb := ((readNat s.streamUploadThresholdMb).map (fun v => (max v 0).toNat)).getD 100
  streamDiskReserveMb := ((readNat s.streamDiskReserveMb).map (fun v => (max v 0).toNat)).getD 0
  honorServerLocks := s.honorServerLocks
  appLockFiles := s.appLockFiles

/-- An optional field is looked up under its own key. -/
theorem docOf_optionalString (key key' : String) (value : Option Line) (es : List (String × Value)) :
    docOf (optionalString key value ++ es) key' =
      if key = key' then ((value.map Value.str).getD (docOf es key')) else docOf es key' := by
  cases value with
  | none => simp [optionalString]
  | some v => simp [optionalString, FlatYaml.docOf_cons]

/-- The entries of the settings. -/
def settingEntries (s : ConfigSettings) : List (String × Value) :=
  (settingScalars s).map fun x => (x.1, x.2.value.getD .other)

/-- A key is looked for among the credentials and then among the settings. -/
theorem docOf_entries (c : Carried) (s : ConfigSettings) (key : String) :
    docOf (entries c s) key =
      if key = "url" then .str c.url
      else if key = "username" then .str c.username
      else if key = "password" then ((c.password.map Value.str).getD (docOf (settingEntries s) key))
      else if key = "bearer_token" then ((c.bearerToken.map Value.str).getD (docOf (settingEntries s) key))
      else if key = "auth_command" then ((c.authCommand.map Value.str).getD (docOf (settingEntries s) key))
      else if key = "mount_point" then .str s.mountPoint
      else if key = "user" then .str c.logUser
      else docOf (settingEntries s) key := by
  have hentries : entries c s = ("url", .str c.url) :: ("username", .str c.username) ::
      (optionalString "password" c.password ++ (optionalString "bearer_token" c.bearerToken ++
        (optionalString "auth_command" c.authCommand ++
          (("mount_point", .str s.mountPoint) :: ("user", .str c.logUser) :: settingEntries s)))) := by
    simp only [entries, settingEntries, List.append_assoc, List.cons_append, List.nil_append]
  simp only [hentries, FlatYaml.docOf_cons, docOf_optionalString, eq_comm (a := key)]
  by_cases hurl : "url" = key
  · simp [hurl]
  by_cases husername : "username" = key
  · simp [hurl, husername]
  by_cases hpassword : "password" = key
  · subst hpassword
    simp
  by_cases hbearer : "bearer_token" = key
  · subst hbearer
    simp
  by_cases hcommand : "auth_command" = key
  · subst hcommand
    simp
  simp [hurl, husername, hpassword, hbearer, hcommand]

@[simp] theorem asI64_natValue (n : Nat) : (if n < 2 ^ 63 then Value.int n else .other).asI64 = readNat n := by
  unfold readNat
  split <;> rfl

theorem asStr_map_str (v : Option Line) : ((v.map Value.str).getD .other).asStr = v := by
  cases v <;> rfl

/-- What the written file is read back as. -/
theorem optionsOf_written (p : WebUrl.Parser) (k : PercentEncoding.Coder) (c : Carried) (s : ConfigSettings) :
    optionsOf p k (docOf (entries c s)) =
      match if normalizeWebdavUrl k c.url c.username = [] then .ok ()
        else validateServerScheme p (normalizeWebdavUrl k c.url c.username) false with
      | .error e => .error (.server e)
      | .ok () => .ok (readBack k c s) := by
  have hstr : ∀ v : Line, (Value.str v).asStr = some v := fun _ => rfl
  have hbool : ∀ b : Bool, (Value.bool b).asBool = some b := fun _ => rfl
  have hother : Value.other.asBool = none := rfl
  have hseq : strings Value.other = [] := rfl
  unfold optionsOf
  simp only [docOf_entries, settingEntries, settingScalars, List.map_cons, List.map_nil, FlatYaml.docOf_cons,
    FlatYaml.docOf_nil, Scalar.value, Option.getD_some, String.reduceEq, if_true, if_false, hstr,
      hbool, hother, hseq,
    asI64_natValue, asStr_map_str, Option.getD_none]
  generalize (if normalizeWebdavUrl k c.url c.username = [] then Except.ok ()
    else validateServerScheme p (normalizeWebdavUrl k c.url c.username) false) = r
  cases r <;> rfl

/-- The written file is one the loader reads, or an error to it. -/
theorem load_configText (yaml : Reader) (c : Carried) (s : ConfigSettings) :
    yaml.load (configText printable c s) =
      if ∀ v ∈ fileStrings c s, Written printable v then some [docOf (entries c s)] else none := by
  rw [← text_flatLines, yaml.load_flat _ (flat_flatLines c s), read_flatLines]
  split <;> rfl

/-! ## Values -/

/-- Values of their types that a configuration file can give. -/
structure ConfigSettings.Representable (s : ConfigSettings) : Prop where
  maxConcurrentRequests : s.maxConcurrentRequests < 2 ^ 64
  dirCacheMaxStaleMins : s.dirCacheMaxStaleMins < 2 ^ 63
  dirCacheMaxDirs : s.dirCacheMaxDirs < 2 ^ 63
  readAheadBytes : s.readAheadBytes < 2 ^ 64
  cacheMaxSizeBytes : s.cacheMaxSizeBytes < 2 ^ 64
  cacheAutoPurgeDays : s.cacheAutoPurgeDays < 2 ^ 32
  cacheCleanupIntervalSecs : s.cacheCleanupIntervalSecs < 2 ^ 64
  staleGioTempMins : s.staleGioTempMins < 2 ^ 64
  walkerListingsPerSec : 1 ≤ s.walkerListingsPerSec ∧ s.walkerListingsPerSec ≤ 1000
  streamUploadThresholdMb : s.streamUploadThresholdMb < 2 ^ 63
  streamDiskReserveMb : s.streamDiskReserveMb < 2 ^ 63

/-- The numbers that take all of their 64 bits are read as signed ones. -/
structure ConfigSettings.Signed (s : ConfigSettings) : Prop where
  maxConcurrentRequests : s.maxConcurrentRequests < 2 ^ 63
  readAheadBytes : s.readAheadBytes < 2 ^ 63
  cacheMaxSizeBytes : s.cacheMaxSizeBytes < 2 ^ 63
  cacheCleanupIntervalSecs : s.cacheCleanupIntervalSecs < 2 ^ 63
  staleGioTempMins : s.staleGioTempMins < 2 ^ 63

/-- Below 2^63 a number is the same signed and unsigned. -/
theorem asU64_natCast {n : Nat} (h : n < 2 ^ 63) : asU64 n = n := by
  unfold asU64
  omega

/-- A field of 64 bits comes back exactly below 2^63: YAML reads a larger number as no integer, and
    the default takes its place. -/
theorem readNat_asU64_iff {n d : Nat} (hd : d < 2 ^ 63) : ((readNat n).map asU64).getD d = n ↔ n < 2 ^ 63 := by
  unfold readNat
  split
  · rename_i h
    exact ⟨fun _ => h, fun _ => asU64_natCast h⟩
  · rename_i h
    simp only [Option.map_none, Option.getD_none, h, iff_false]
    omega

/-- A field that is at least zero comes back below 2^63. -/
theorem readNat_max {n d : Nat} (h : n < 2 ^ 63) : ((readNat n).map fun v => (max v 0).toNat).getD d = n := by
  simp only [readNat, h, if_true, Option.map_some, Option.getD_some]
  omega

/-- The settings are read back if none of them is out of the signed numbers. -/
theorem configSettings_readBack_iff (k : PercentEncoding.Coder) {s : ConfigSettings} (hs : s.Representable)
    (c : Carried) :
    configSettingsFromOpts (readBack k c s) = s ↔ s.Signed := by
  -- the requests' bound has a default of its own
  have hfirst : asU64 ((readNat s.maxConcurrentRequests).getD 10) = s.maxConcurrentRequests ↔
      s.maxConcurrentRequests < 2 ^ 63 := by
    have h := readNat_asU64_iff (n := s.maxConcurrentRequests) (d := 10) (by decide)
    rw [← h]
    cases readNat s.maxConcurrentRequests <;> rfl
  -- the days and the listings fit in 32 bits, where nothing is lost
  have hdays : ((readNat s.cacheAutoPurgeDays).map asU32).getD 10 = s.cacheAutoPurgeDays := by
    have h := hs.cacheAutoPurgeDays
    have h63 : s.cacheAutoPurgeDays < 2 ^ 63 := by omega
    simp only [readNat, h63, if_true, Option.map_some, Option.getD_some, asU32]
    omega
  have hwalker : ((readNat s.walkerListingsPerSec).map fun v => (max 1 (min v 1000)).toNat).getD 10 =
      s.walkerListingsPerSec := by
    have h := hs.walkerListingsPerSec
    have h63 : s.walkerListingsPerSec < 2 ^ 63 := by omega
    simp only [readNat, h63, if_true, Option.map_some, Option.getD_some]
    omega
  constructor
  · intro h
    -- equal settings have equal fields
    have hfield : ∀ {β : Type} (f : ConfigSettings → β), f (configSettingsFromOpts (readBack k c s)) = f s :=
      fun f => congrArg f h
    exact ⟨hfirst.mp (hfield (·.maxConcurrentRequests)),
      (readNat_asU64_iff (by decide)).mp (hfield (·.readAheadBytes)),
      (readNat_asU64_iff (by decide)).mp (hfield (·.cacheMaxSizeBytes)),
      (readNat_asU64_iff (by decide)).mp (hfield (·.cacheCleanupIntervalSecs)),
      (readNat_asU64_iff (by decide)).mp (hfield (·.staleGioTempMins))⟩
  · intro h
    have hread := (readNat_asU64_iff (d := 64 * 1024 * 1024) (by decide)).mpr h.readAheadBytes
    have hsize := (readNat_asU64_iff (d := 32 * 1024 * 1024 * 1024) (by decide)).mpr h.cacheMaxSizeBytes
    have hcleanup := (readNat_asU64_iff (d := 3600) (by decide)).mpr h.cacheCleanupIntervalSecs
    have hgio := (readNat_asU64_iff (d := 10) (by decide)).mpr h.staleGioTempMins
    simp only [configSettingsFromOpts, readBack, hfirst.mpr h.maxConcurrentRequests, hread, hsize,
      hcleanup, hgio, hdays, hwalker, readNat_max hs.dirCacheMaxStaleMins, readNat_max hs.dirCacheMaxDirs,
      readNat_max hs.streamUploadThresholdMb, readNat_max hs.streamDiskReserveMb]

/-! ## Saving -/

/-- The options of a file that can be read and is accepted. -/
def accepted (p : WebUrl.Parser) (k : PercentEncoding.Coder) (yaml : Reader) : ConfigFile → Option MountOptions
  | .unreadable => none
  | .text t => (configurationParser p k yaml t).toOption

/-- The options that are no settings. -/
structure MountOptions.SameOthers (opts opts' : MountOptions) : Prop where
  url : opts'.url = opts.url
  username : opts'.username = opts.username
  password : opts'.password = opts.password
  bearerToken : opts'.bearerToken = opts.bearerToken
  authCommand : opts'.authCommand = opts.authCommand
  keepPaths : opts'.keepPaths = opts.keepPaths
  excludeFolders : opts'.excludeFolders = opts.excludeFolders
  allowInsecureHttp : opts'.allowInsecureHttp = opts.allowInsecureHttp

/-- Of an accepted file only the settings change; any other is left alone, with an error. -/
def SavesOnlySettings (p : WebUrl.Parser) (k : PercentEncoding.Coder) (yaml : Reader)
    (printable : Char → Bool) (io : SettingsIo)
    (file : ConfigFile) (s : ConfigSettings) : Prop :=
  let r := rewriteConfigSettings yaml printable io (some file) s
  match accepted p k yaml file with
  | some opts => r.1 = .ok () → ∃ t opts', r.2 = some (.text t) ∧ configurationParser p k yaml t = .ok opts' ∧
      configSettingsFromOpts opts' = s ∧ opts.SameOthers opts'
  | none => r.1 ≠ .ok () ∧ r.2 = some file

/-- What the options of a document have to be to come back from the file that is written. -/
structure Rewritable (printable : Char → Bool) (doc : Doc) (opts : MountOptions)
    (s : ConfigSettings) : Prop where
  username : opts.username ≠ none
  password : opts.password ≠ some []
  bearerToken : opts.bearerToken ≠ some []
  authCommand : opts.authCommand ≠ some []
  keepPaths : opts.keepPaths = []
  excludeFolders : opts.excludeFolders = []
  allowInsecureHttp : opts.allowInsecureHttp = false
  signed : s.Signed
  written : ∀ v ∈ fileStrings (carried [doc]) s, Written printable v

variable {p : WebUrl.Parser} {k : PercentEncoding.Coder} {yaml : Reader} {s : ConfigSettings}
  {doc : Doc} {opts : MountOptions}

/-- Dropping an empty string changes nothing else. -/
theorem nonEmpty_eq_iff {v : Option Line} : nonEmpty v = v ↔ v ≠ some [] := by
  cases v with
  | none => simp [nonEmpty]
  | some t => cases t <;> simp [nonEmpty]

/-- What was accepted of a document. -/
theorem optionsOf_ok (hok : optionsOf p k doc = .ok opts) :
    ∃ url, (doc "url").asStr = some url ∧
      opts.url = normalizeWebdavUrl k url ((doc "username").asStr.getD []) ∧
      opts.username = (doc "username").asStr ∧ opts.password = (doc "password").asStr ∧
      opts.bearerToken = (doc "bearer_token").asStr ∧ opts.authCommand = (doc "auth_command").asStr ∧
      (opts.url = [] ∨ validateServerScheme p opts.url opts.allowInsecureHttp = .ok ()) := by
  unfold optionsOf at hok
  split at hok
  · cases hok
  · rename_i url hurl
    refine ⟨url, hurl, ?_⟩
    dsimp only at hok
    split at hok
    · cases hok
    · -- only a server address that is not empty is checked
      rename_i hcheck
      cases hok
      refine ⟨rfl, rfl, rfl, rfl, rfl, ?_⟩
      split at hcheck
      · rename_i hempty
        exact .inl hempty
      · exact .inr hcheck

/-- What comes back of an accepted document. -/
theorem readBack_sameOthers_iff (hok : optionsOf p k doc = .ok opts) (s : ConfigSettings) :
    opts.SameOthers (readBack k (carried [doc]) s) ↔
      opts.username ≠ none ∧ opts.password ≠ some [] ∧ opts.bearerToken ≠ some [] ∧ opts.authCommand ≠ some [] ∧
        opts.keepPaths = [] ∧ opts.excludeFolders = [] ∧ opts.allowInsecureHttp = false := by
  obtain ⟨url, hurl, hopturl, husername, hpassword, hbearer, hcommand, -⟩ := optionsOf_ok hok
  -- a username is always written, so that one that is missing becomes an empty one
  have hname : some ((doc "username").asStr.getD []) = opts.username ↔ opts.username ≠ none := by
    rw [husername]
    cases (doc "username").asStr <;> simp
  have hpass : nonEmpty (doc "password").asStr = opts.password ↔ opts.password ≠ some [] := by
    rw [hpassword, nonEmpty_eq_iff]
  have htoken : nonEmpty (doc "bearer_token").asStr = opts.bearerToken ↔ opts.bearerToken ≠ some [] := by
    rw [hbearer, nonEmpty_eq_iff]
  have hcmd : nonEmpty (doc "auth_command").asStr = opts.authCommand ↔ opts.authCommand ≠ some [] := by
    rw [hcommand, nonEmpty_eq_iff]
  constructor
  · intro hsame
    exact ⟨hname.mp hsame.username, hpass.mp hsame.password, htoken.mp hsame.bearerToken,
      hcmd.mp hsame.authCommand, hsame.keepPaths.symm, hsame.excludeFolders.symm, hsame.allowInsecureHttp.symm⟩
  · intro ⟨h1, h2, h3, h4, h5, h6, h7⟩
    refine ⟨?_, hname.mpr h1, hpass.mpr h2, htoken.mpr h3, hcmd.mpr h4, h5.symm, h6.symm, h7.symm⟩
    -- the address was normalized when it was read, and is again
    rw [hopturl]
    simp [readBack, carried, hurl]

/-- The written file, where the options that check the server are what they were. -/
theorem configurationParser_configText (hok : optionsOf p k doc = .ok opts)
    (hplain : opts.allowInsecureHttp = false) :
    configurationParser p k yaml (configText printable (carried [doc]) s) =
      if ∀ v ∈ fileStrings (carried [doc]) s, Written printable v then .ok (readBack k (carried [doc]) s)
      else .error .yaml := by
  obtain ⟨url, hurl, hopturl, -, -, -, -, hcheck⟩ := optionsOf_ok hok
  have hsame : normalizeWebdavUrl k (carried [doc]).url (carried [doc]).username = opts.url := by
    rw [hopturl]
    simp [carried, hurl]
  unfold configurationParser
  rw [load_configText]
  split
  · rename_i hload
    split at hload
    · cases hload
    · rename_i hnot
      rw [if_neg hnot]
  · -- a text with no document does not come from this file
    rename_i hload
    split at hload <;> cases hload
  · rename_i doc' rest hload
    split at hload
    · rename_i hwritten
      obtain ⟨rfl, -⟩ := List.cons.inj (Option.some.inj hload)
      rw [if_pos hwritten, optionsOf_written, hsame]
      -- the address that was accepted once is accepted again: without the flag it was not plain http
      obtain hempty | hvalid := hcheck
      · rw [if_pos hempty]
      · rw [hplain] at hvalid
        rw [hvalid]
        split
        · rename_i e he
          split at he <;> cases he
        · rfl
    · cases hload

/-- Whatever is read back of the written file is what was put in. -/
theorem eq_readBack {c : Carried} {opts' : MountOptions}
    (hok : configurationParser p k yaml (configText printable c s) = .ok opts') :
    opts' = readBack k c s ∧ ∀ v ∈ fileStrings c s, Written printable v := by
  unfold configurationParser at hok
  rw [load_configText] at hok
  by_cases hwritten : ∀ v ∈ fileStrings c s, Written printable v
  · rw [if_pos hwritten] at hok
    simp only [optionsOf_written] at hok
    split at hok
    · cases hok
    · exact ⟨(Except.ok.inj hok).symm, hwritten⟩
  · rw [if_neg hwritten] at hok
    cases hok

/-- What the parser accepts has a first document, and its options are those of it. -/
theorem configurationParser_ok {t : Line} (hok : configurationParser p k yaml t = .ok opts) :
    ∃ doc docs, yaml.load t = some (doc :: docs) ∧ optionsOf p k doc = .ok opts := by
  unfold configurationParser at hok
  split at hok
  · cases hok
  · cases hok
  · rename_i doc docs hload
    exact ⟨doc, docs, hload, hok⟩

/-- What a successful call writes. -/
theorem rewriteConfigSettings_ok {io : SettingsIo} {t : Line} {docs : List Doc}
    (hload : yaml.load t = some (doc :: docs))
    (hok : (rewriteConfigSettings yaml printable io (some (.text t)) s).1 = .ok ()) :
    (rewriteConfigSettings yaml printable io (some (.text t)) s).2 =
      some (.text (configText printable (carried [doc]) s)) := by
  unfold rewriteConfigSettings at hok ⊢
  dsimp only at hok ⊢
  rw [hload] at hok ⊢
  dsimp only [Option.getD_some] at hok ⊢
  split at hok
  · cases hok
  · rename_i hdir
    rw [if_neg hdir]
    split at hok
    · cases hok
    · cases hok
    · cases hok
    · rfl

/-- The strings of the file are readable when those that are always there and those that may be
    there are. -/
theorem written_fileStrings {c : Carried}
    (hfixed : ∀ v ∈ [c.url, c.username, s.mountPoint, c.logUser], Written printable v)
    (hoptional : ∀ o ∈ [c.password, c.bearerToken, c.authCommand], ∀ v ∈ o.toList, Written printable v) :
    ∀ v ∈ fileStrings c s, Written printable v := by
  simp only [List.forall_mem_cons] at hfixed hoptional
  obtain ⟨hurl, husername, hmount, hlog, -⟩ := hfixed
  obtain ⟨hpassword, hbearer, hcommand, -⟩ := hoptional
  simp only [fileStrings, List.forall_mem_append, List.forall_mem_cons]
  exact ⟨⟨⟨⟨⟨hurl, husername, nofun⟩, hpassword⟩, hbearer⟩, hcommand⟩, hmount, hlog, nofun⟩

/-- A document with the strings of an account. -/
theorem carried_entries (c : Carried) (s : ConfigSettings) (hpassword : c.password ≠ some [])
    (hbearer : c.bearerToken ≠ some []) (hcommand : c.authCommand ≠ some []) (hlog : c.logUser ≠ []) :
    carried [docOf (entries c s)] = c := by
  have hpass := nonEmpty_eq_iff.mpr hpassword
  have htoken := nonEmpty_eq_iff.mpr hbearer
  have hcmd := nonEmpty_eq_iff.mpr hcommand
  have huser : nonEmpty (some c.logUser) = some c.logUser := nonEmpty_eq_iff.mpr (by simpa using hlog)
  have hstr : ∀ v : Line, (Value.str v).asStr = some v := fun _ => rfl
  simp only [carried, docOf_entries, settingEntries, settingScalars, List.map_cons, List.map_nil,
    FlatYaml.docOf_cons, FlatYaml.docOf_nil, String.reduceEq, if_true, if_false, hstr,
      asStr_map_str, hpass, htoken, hcmd, huser,
    Option.getD_some]

/-- What is taken for the text of the file there is. -/
def fileText : ConfigFile → Line
  | .unreadable => []
  | .text t => t

/-- A file that can be written to is rewritten, whatever was in it. -/
theorem rewriteConfigSettings_written (file : ConfigFile) {c : Carried}
    (hc : carried ((yaml.load (fileText file)).getD []) = c) :
    rewriteConfigSettings yaml printable {}
    (some file) s = (.ok (), some (.text (configText printable c s))) := by
  rw [← hc]
  cases file <;> rfl

/-- What is written for a server that needs the option that is not carried over. -/
theorem configurationParser_refused {c : Carried} {e : ServerError}
    (hwritten : ∀ v ∈ fileStrings c s, Written printable v) (hne : normalizeWebdavUrl k c.url c.username ≠ [])
    (hrefused : validateServerScheme p (normalizeWebdavUrl k c.url c.username) false = .error e) :
    configurationParser p k yaml (configText printable c s) = .error (.server e) := by
  unfold configurationParser
  rw [load_configText, if_pos hwritten]
  simp only [optionsOf_written, if_neg hne, hrefused]

/-- Saving changes the settings and nothing else if and only if the file is accepted, has none of what
    is not carried over, and what is written can be read back. -/
theorem rewrite_saves_only_settings_iff (p : WebUrl.Parser) (k : PercentEncoding.Coder)
    (yaml : Reader) (printable : Char → Bool)
    (file : ConfigFile) (s : ConfigSettings) (hs : s.Representable) :
    (∀ io, SavesOnlySettings p k yaml printable io file s) ↔
      ∃ t doc docs opts, file = .text t ∧ yaml.load t = some (doc :: docs) ∧ optionsOf p k doc = .ok opts ∧
        Rewritable printable doc opts s := by
  constructor
  · intro hsaves
    -- with nothing in the way of writing, the call succeeds whatever the file is
    have hsave := hsaves {}
    cases haccepted : accepted p k yaml file with
    | none =>
      rw [SavesOnlySettings, haccepted] at hsave
      exact absurd rfl hsave.1
    | some opts =>
      rw [SavesOnlySettings, haccepted] at hsave
      -- the file was accepted, so that it is a text with a document
      obtain ⟨t, rfl, hparse⟩ : ∃ t, file = .text t ∧ configurationParser p k yaml t = .ok opts := by
        cases file with
        | unreadable => cases haccepted
        | text t =>
          refine ⟨t, rfl, ?_⟩
          have haccepted : (configurationParser p k yaml t).toOption = some opts := haccepted
          cases hparse : configurationParser p k yaml t with
          | error e =>
            rw [hparse] at haccepted
            cases haccepted
          | ok o =>
            rw [hparse] at haccepted
            rw [Option.some.inj haccepted]
      obtain ⟨doc, docs, hload, hok⟩ := configurationParser_ok hparse
      refine ⟨t, doc, docs, opts, rfl, hload, hok, ?_⟩
      -- the settings that come back decide the field bounds, the other options the rest
      obtain ⟨t', opts', hfile, hparse', hsettings, hothers⟩ := hsave rfl
      rw [rewriteConfigSettings_ok hload rfl] at hfile
      obtain rfl : configText printable (carried [doc]) s = t' := by injections
      obtain ⟨rfl, hwritten⟩ := eq_readBack hparse'
      obtain ⟨h1, h2, h3, h4, h5, h6, h7⟩ := (readBack_sameOthers_iff hok s).mp hothers
      exact ⟨h1, h2, h3, h4, h5, h6, h7, (configSettings_readBack_iff k hs _).mp hsettings, hwritten⟩
  · intro ⟨t, doc, docs, opts, hfile, hload, hok, hr⟩ io
    subst hfile
    have haccepted : accepted p k yaml (.text t) = some opts := by
      simp only [accepted, configurationParser, hload, hok]
      rfl
    rw [SavesOnlySettings, haccepted]
    intro hsaved
    refine ⟨_, readBack k (carried [doc]) s, rewriteConfigSettings_ok hload hsaved, ?_,
      (configSettings_readBack_iff k hs _).mpr hr.signed, ?_⟩
    · rw [configurationParser_configText hok hr.allowInsecureHttp, if_pos hr.written]
    · exact (readBack_sameOthers_iff hok s).mpr ⟨hr.username, hr.password, hr.bearerToken, hr.authCommand,
        hr.keepPaths, hr.excludeFolders, hr.allowInsecureHttp⟩

/-- The settings of a new configuration. -/
def freshSettings (mountPoint : Line) : ConfigSettings where
  mountPoint := mountPoint
  aggressivePrefetch := false
  http3 := true
  maxConcurrentRequests := 10
  optimisticListing := true
  dirCacheMaxStaleMins := 15
  dirCacheMaxDirs := 5000
  autoKeepLocallyModifiedFiles := true
  autoKeepCachedFiles := false
  readAheadBytes := 64 * 1024 * 1024
  cacheMaxSizeBytes := 32 * 1024 * 1024 * 1024
  cacheAutoPurgeDays := 10
  cacheCleanupIntervalSecs := 3600
  cacheStreamedReads := false
  cleanupStaleGioTemps := true
  staleGioTempMins := 10
  fusePassthrough := true
  walkerRateLimit := true
  walkerListingsPerSec := 10
  streamUploads := true
  streamUploadThresholdMb := 100
  streamDiskReserveMb := 0
  honorServerLocks := true
  appLockFiles := true

/-- The settings of a new installation fit their fields. -/
theorem freshSettings_representable (mountPoint : Line) : (freshSettings mountPoint).Representable := by
  constructor <;> simp [freshSettings]

/-- An account with a password. -/
def aliceAccount : Carried where
  url := "https://cloud.example.com".toList
  username := "alice".toList
  password := some "s3cret".toList
  logUser := "alice".toList

theorem written_aliceAccount {mountPoint : Line} (h : Written (fun _ => false) mountPoint) :
    ∀ v ∈ fileStrings aliceAccount (freshSettings mountPoint), Written (fun _ => false) v := by
  have hurl : Written (fun _ => false) aliceAccount.url := by decide
  have hname : Written (fun _ => false) aliceAccount.username := by decide
  have hlog : Written (fun _ => false) aliceAccount.logUser := by decide
  have hpassword : Written (fun _ => false) "s3cret".toList := by decide
  apply written_fileStrings
  · simp only [List.forall_mem_cons]
    exact ⟨hurl, hname, h, hlog, nofun⟩
  · simp only [List.forall_mem_cons]
    refine ⟨fun v hv => ?_, nofun, nofun, nofun⟩
    rw [List.mem_singleton.mp hv]
    exact hpassword

/-- The settings of alice's first start. -/
def homeSettings : ConfigSettings := freshSettings "/home/alice/Nextcloud".toList

/-- The file of that account. -/
def aliceFile : Line := configText (fun _ => false) aliceAccount homeSettings

theorem rewritable_aliceAccount : Rewritable (fun _ => false) (docOf (entries aliceAccount homeSettings))
    (readBack PercentEncoding.coder aliceAccount homeSettings) (freshSettings "/mnt/\"cloud\"".toList) := by
  have hcarried : carried [docOf (entries aliceAccount homeSettings)] = aliceAccount :=
    carried_entries _ _ (by decide) (by decide) (by decide) (by decide)
  have hpassword : aliceAccount.password ≠ some [] := by decide
  constructor
  · exact Option.some_ne_none _
  · exact hpassword
  · exact (Option.some_ne_none _).symm
  · exact (Option.some_ne_none _).symm
  · rfl
  · rfl
  · rfl
  · constructor <;> simp [freshSettings]
  · rw [hcarried]
    exact written_aliceAccount (by decide)

/-- A file that was saved can be saved again, here with another mount point. -/
theorem saved_file_is_saved_again :
    SavesOnlySettings asciiHosts.parser PercentEncoding.coder FlatYaml.lineReader
    (fun _ => false) {}
    (.text aliceFile) (freshSettings "/mnt/\"cloud\"".toList) := by
  have hload : FlatYaml.lineReader.load aliceFile = some [docOf (entries aliceAccount homeSettings)] := by
    rw [aliceFile, load_configText, if_pos]
    exact written_aliceAccount (by decide)
  have hoptions : optionsOf asciiHosts.parser PercentEncoding.coder
    (docOf (entries aliceAccount homeSettings)) =
      .ok (readBack PercentEncoding.coder aliceAccount homeSettings) := by
    have hvalid : validateServerScheme asciiHosts.parser
        (normalizeWebdavUrl PercentEncoding.coder aliceAccount.url aliceAccount.username) false =
          .ok () := by decide
    have hne : normalizeWebdavUrl PercentEncoding.coder aliceAccount.url aliceAccount.username ≠ [] := by decide
    rw [optionsOf_written, if_neg hne, hvalid]
  have haccepted : ∃ t doc docs opts, ConfigFile.text aliceFile = .text t ∧
      FlatYaml.lineReader.load t = some (doc :: docs) ∧
        optionsOf asciiHosts.parser PercentEncoding.coder doc = .ok opts ∧
        Rewritable (fun _ => false) doc opts (freshSettings "/mnt/\"cloud\"".toList) :=
    ⟨aliceFile, docOf (entries aliceAccount homeSettings), [],
      readBack PercentEncoding.coder aliceAccount homeSettings, rfl, hload, hoptions, rewritable_aliceAccount⟩
  generalize ({} : SettingsIo) = io
  -- the save is one of those that the characterization speaks of
  revert io
  rw [rewrite_saves_only_settings_iff _ _ _ _ _ _ (freshSettings_representable _)]
  exact haccepted

/-- A server in the house, reached without TLS. -/
def localFile : Line := "url: \"http://nc.lan\"\nusername: \"alice\"\nallow_insecure_http: true\n".toList

/-- An account on a server of the local network, reached without TLS. -/
def localAccount : Carried where
  url := "http://nc.lan".toList
  username := "alice".toList
  logUser := "alice".toList

/-- The file is accepted; saving the settings succeeds, and what it writes is turned down. A file that
    cannot be read is written over with an account that has nothing. -/
theorem saving_locks_out :
    (configurationParser asciiHosts.parser PercentEncoding.coder FlatYaml.lineReader
    localFile).toOption.map (·.allowInsecureHttp) = some true ∧
      rewriteConfigSettings FlatYaml.lineReader (fun _ => false) {} (some (.text localFile)) homeSettings =
        (.ok (), some (.text (configText (fun _ => false) localAccount homeSettings))) ∧
      configurationParser asciiHosts.parser PercentEncoding.coder FlatYaml.lineReader
        (configText (fun _ => false) localAccount homeSettings) =
        .error (.server (.plaintext "http://nc.lan/remote.php/dav/files/alice/".toList)) ∧
      rewriteConfigSettings FlatYaml.lineReader (fun _ => false) {} (some .unreadable) homeSettings =
        (.ok (), some (.text (configText (fun _ => false) {} homeSettings))) := by
  have hcarried : carried ((FlatYaml.lineReader.load localFile).getD []) = localAccount := by decide
  have hnothing : carried ((FlatYaml.lineReader.load []).getD []) = {} := by decide
  have hurl : Written (fun _ => false) localAccount.url := by decide
  have hname : Written (fun _ => false) localAccount.username := by decide
  have hmount : Written (fun _ => false) homeSettings.mountPoint := by decide
  have hwritten : ∀ v ∈ fileStrings localAccount homeSettings, Written (fun _ => false) v := by
    apply written_fileStrings
    · simp only [List.forall_mem_cons]
      exact ⟨hurl, hname, hmount, hname, nofun⟩
    · simp only [List.forall_mem_cons]
      exact ⟨nofun, nofun, nofun, nofun⟩
  have hrefused : validateServerScheme asciiHosts.parser
    (normalizeWebdavUrl PercentEncoding.coder localAccount.url localAccount.username) false =
      .error (.plaintext "http://nc.lan/remote.php/dav/files/alice/".toList) := by decide
  have hne : normalizeWebdavUrl PercentEncoding.coder localAccount.url localAccount.username ≠ [] := by decide
  refine ⟨by decide, ?_, ?_, ?_⟩
  · exact rewriteConfigSettings_written _ hcarried
  · exact configurationParser_refused hwritten hne hrefused
  · exact rewriteConfigSettings_written _ hnothing

end Config

end Ncrs
