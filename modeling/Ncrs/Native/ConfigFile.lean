import Ncrs.ForStd.FlatYaml
import Ncrs.Native.LoginFlow

/-!
# The configuration file

Model of `configuration_parser`, `config_settings_from_opts` and `rewrite_config_settings`
(`config.rs`). The YAML loader is a parameter (`FlatYaml.Reader`), and so are the crates an address is
read and written with. Numbers are natural numbers with the casts written out. Of the characters from
U+00A0 on that are no separators and not left free by Unicode, which ones Rust's `{:?}` writes as
themselves is a parameter.
-/

namespace Ncrs

namespace Config

open FlatYaml (Doc Reader)

/-! ## The options -/

structure MountOptions where
  url : Line
  username : Option Line
  password : Option Line
  bearerToken : Option Line
  authCommand : Option Line
  mountPoint : Line
  logUser : Line
  aggressivePrefetch : Bool
  http3 : Bool
  maxConcurrentRequests : Nat
  offline : Bool := false
  optimisticListing : Bool
  dirCacheMaxStaleMins : Nat
  dirCacheMaxDirs : Nat
  autoKeepLocallyModifiedFiles : Bool
  autoKeepCachedFiles : Bool
  readAheadBytes : Nat
  cacheStreamedReads : Bool
  cacheMaxSizeBytes : Nat
  cacheAutoPurgeDays : Nat
  cacheCleanupIntervalSecs : Nat
  keepPaths : List Line
  excludeFolders : List Line
  cleanupStaleGioTemps : Bool
  staleGioTempMins : Nat
  fusePassthrough : Bool
  allowInsecureHttp : Bool
  walkerRateLimit : Bool
  walkerListingsPerSec : Nat
  streamUploads : Bool
  streamUploadThresholdMb : Nat
  streamDiskReserveMb : Nat
  honorServerLocks : Bool
  appLockFiles : Bool
  deriving DecidableEq, Repr

/-- The settings that are edited. -/
structure ConfigSettings where
  mountPoint : Line
  aggressivePrefetch : Bool
  http3 : Bool
  maxConcurrentRequests : Nat
  optimisticListing : Bool
  dirCacheMaxStaleMins : Nat
  dirCacheMaxDirs : Nat
  autoKeepLocallyModifiedFiles : Bool
  autoKeepCachedFiles : Bool
  readAheadBytes : Nat
  cacheMaxSizeBytes : Nat
  cacheAutoPurgeDays : Nat
  cacheCleanupIntervalSecs : Nat
  cacheStreamedReads : Bool
  cleanupStaleGioTemps : Bool
  staleGioTempMins : Nat
  fusePassthrough : Bool
  walkerRateLimit : Bool
  walkerListingsPerSec : Nat
  streamUploads : Bool
  streamUploadThresholdMb : Nat
  streamDiskReserveMb : Nat
  honorServerLocks : Bool
  appLockFiles : Bool
  deriving DecidableEq, Repr

inductive ConfigError where
  | yaml
  | empty
  | missingUrl
  | server (e : ServerError)
  deriving DecidableEq, Repr

/-- `as u64`, and `as usize`. -/
def asU64 (v : Int) : Nat := (v % 2 ^ 64).toNat

/-- `as u32`. -/
def asU32 (v : Int) : Nat := (v % 2 ^ 32).toNat

/-- The strings of a sequence. -/
def strings (v : FlatYaml.Value) : List Line := (v.asVec.map (·.filterMap id)).getD []

/-- `configuration_parser`, of the first document. -/
def optionsOf (p : WebUrl.Parser) (k : PercentEncoding.Coder) (doc : Doc) : Except ConfigError MountOptions :=
  match (doc "url").asStr with
  | none => .error .missingUrl
  | some url =>
    let username := (doc "username").asStr
    let url := normalizeWebdavUrl k url (username.getD [])
    let allowInsecureHttp := (doc "allow_insecure_http").asBool.getD false
    match if url = [] then .ok () else validateServerScheme p url allowInsecureHttp with
    | .error e => .error (.server e)
    | .ok () =>
      .ok {
        url := url
        username := username
        password := (doc "password").asStr
        bearerToken := (doc "bearer_token").asStr
        authCommand := (doc "auth_command").asStr
        mountPoint := (doc "mount_point").asStr.getD "/media/ncrs_mount".toList
        logUser := (doc "user").asStr.getD "default_user".toList
        aggressivePrefetch := (doc "aggressive_prefetch").asBool.getD false
        http3 := (doc "http3").asBool.getD true
        maxConcurrentRequests := asU64 ((doc "max_concurrent_requests").asI64.getD 10)
        optimisticListing := (doc "optimistic_listing").asBool.getD true
        dirCacheMaxStaleMins := ((doc "dir_cache_max_stale_mins").asI64.map (fun v => (max v 0).toNat)).getD 15
        dirCacheMaxDirs := ((doc "dir_cache_max_dirs").asI64.map (fun v => (max v 0).toNat)).getD 5000
        autoKeepLocallyModifiedFiles := (doc "auto_keep_locally_modified_files").asBool.getD true
        autoKeepCachedFiles := (doc "auto_keep_cached_files").asBool.getD false
        readAheadBytes := ((doc "read_ahead_bytes").asI64.map asU64).getD (64 * 1024 * 1024)
        cacheStreamedReads := (doc "cache_streamed_reads").asBool.getD false
        cacheMaxSizeBytes := ((doc "cache_max_size_bytes").asI64.map asU64).getD (32 * 1024 * 1024 * 1024)
        cacheAutoPurgeDays := ((doc "cache_auto_purge_days").asI64.map asU32).getD 10
        cacheCleanupIntervalSecs := ((doc "cache_cleanup_interval_secs").asI64.map asU64).getD 3600
        cleanupStaleGioTemps := (doc "cleanup_stale_gio_temps").asBool.getD true
        staleGioTempMins := ((doc "stale_gio_temp_mins").asI64.map asU64).getD 10
        fusePassthrough := (doc "fuse_passthrough").asBool.getD true
        walkerRateLimit := (doc "walker_rate_limit").asBool.getD true
        walkerListingsPerSec := ((doc "walker_listings_per_sec").asI64.map
          (fun v => (max 1 (min v 1000)).toNat)).getD 10
        streamUploads := (doc "stream_uploads").asBool.getD true
        streamUploadThresholdMb :=
          ((doc "stream_upload_threshold_mb").asI64.map (fun v => (max v 0).toNat)).getD 100
        streamDiskReserveMb := ((doc "stream_disk_reserve_mb").asI64.map (fun v => (max v 0).toNat)).getD 0
        honorServerLocks := (doc "honor_server_locks").asBool.getD true
        appLockFiles := (doc "app_lock_files").asBool.getD true
        keepPaths := strings (doc "keep_paths")
        excludeFolders := strings (doc "exclude_folders")
        allowInsecureHttp := allowInsecureHttp }

/-- `configuration_parser`. -/
def configurationParser (p : WebUrl.Parser) (k : PercentEncoding.Coder) (yaml : Reader) (conf : Line) :
    Except ConfigError MountOptions :=
  match yaml.load conf with
  | none => .error .yaml
  | some [] => .error .empty
  | some (doc :: _) => optionsOf p k doc

/-- `config_settings_from_opts`. -/
def configSettingsFromOpts (opts : MountOptions) : ConfigSettings where
  mountPoint := opts.mountPoint
  aggressivePrefetch := opts.aggressivePrefetch
  http3 := opts.http3
  maxConcurrentRequests := opts.maxConcurrentRequests
  optimisticListing := opts.optimisticListing
  dirCacheMaxStaleMins := opts.dirCacheMaxStaleMins
  dirCacheMaxDirs := opts.dirCacheMaxDirs
  autoKeepLocallyModifiedFiles := opts.autoKeepLocallyModifiedFiles
  autoKeepCachedFiles := opts.autoKeepCachedFiles
  readAheadBytes := opts.readAheadBytes
  cacheMaxSizeBytes := opts.cacheMaxSizeBytes
  cacheAutoPurgeDays := opts.cacheAutoPurgeDays
  cacheCleanupIntervalSecs := opts.cacheCleanupIntervalSecs
  cacheStreamedReads := opts.cacheStreamedReads
  cleanupStaleGioTemps := opts.cleanupStaleGioTemps
  staleGioTempMins := opts.staleGioTempMins
  fusePassthrough := opts.fusePassthrough
  walkerRateLimit := opts.walkerRateLimit
  walkerListingsPerSec := opts.walkerListingsPerSec
  streamUploads := opts.streamUploads
  streamUploadThresholdMb := opts.streamUploadThresholdMb
  streamDiskReserveMb := opts.streamDiskReserveMb
  honorServerLocks := opts.honorServerLocks
  appLockFiles := opts.appLockFiles

/-! ## Strings as `{:?}` writes them -/

/-- Controls, separators, the mark of the byte order and what is no character are not printed. -/
def isPrintable (printable : Char → Bool) (c : Char) : Bool :=
  let n := c.toNat
  if n < 0x80 then 0x20 ≤ n && n ≠ 0x7f
  else 0xa0 ≤ n && !([0x2028, 0x2029, 0xfeff, 0xfffe, 0xffff].contains n) && printable c

/-- The letter of an escape that has one. -/
def escapeLetter (c : Char) : Option Char :=
  if c = '\x00' then some '0'
  else if c = '\t' then some 't'
  else if c = '\r' then some 'r'
  else if c = '\n' then some 'n'
  else if c = '"' || c = '\\' then some c
  else none

/-- `char::escape_debug_ext`, as a string's `Debug` calls it. -/
def escapeDebug (printable : Char → Bool) (c : Char) : Line :=
  match escapeLetter c with
  | some l => ['\\', l]
  | none =>
    if isPrintable printable c then [c]
    else '\\' :: 'u' :: '\x7b' :: Nat.toDigits 16 c.toNat ++ ['\x7d']

/-- A string in `{:?}`. -/
def debug (printable : Char → Bool) (s : Line) : Line :=
  '"' :: s.flatMap (escapeDebug printable) ++ ['"']

/-! ## The file that is written -/

/-- What is carried over from the file there is. -/
structure Carried where
  url : Line := []
  username : Line := []
  password : Option Line := none
  bearerToken : Option Line := none
  authCommand : Option Line := none
  logUser : Line := []
  deriving DecidableEq, Repr

/-- A string that is set to something. -/
def nonEmpty (s : Option Line) : Option Line := s.filter fun s => !s.isEmpty

def carried : List Doc → Carried
  | [] => {}
  | doc :: _ =>
    let username := (doc "username").asStr.getD []
    { url := (doc "url").asStr.getD []
      username := username
      password := nonEmpty (doc "password").asStr
      bearerToken := nonEmpty (doc "bearer_token").asStr
      authCommand := nonEmpty (doc "auth_command").asStr
      logUser := (nonEmpty (doc "user").asStr).getD username }

/-- The comment above a setting. -/
def settingComment : String → List String
  | "aggressive_prefetch" => [
    "# When enabled, ncRS pre-fetches metadata and thumbnails for every entry in a",
    "# directory as soon as it is listed, even before the files are opened. Speeds",
    "# up browsing but increases network traffic on large directories."]
  | "http3" => [
    "# Prefer HTTP/3 (QUIC). Probed once at mount time: if QUIC fails there while",
    "# plain HTTPS works, the daemon logs a warning, runs the session on HTTP/2 and",
    "# remembers the verdict for a week (h3_demoted in the cache dir), so restarts",
    "# don't re-pay the discovery blip. Set false if your network never does QUIC."]
  | "optimistic_listing" => [
    "# When enabled, directory listings are returned immediately from the local cache",
    "# while a background refresh fetches the latest contents from the server.",
    "# Keeps the file manager responsive; disable if you need listings to always",
    "# reflect the current server state before rendering."]
  | "dir_cache_max_stale_mins" => [
    "# Before showing a directory whose cached listing is older than this many",
    "# minutes, ask the server whether it changed, so the first listing is already",
    "# current. An unchanged directory costs one small request. Only applies while",
    "# push notifications are down; while they work, a 24-hour backstop applies.",
    "# 0 disables."]
  | "dir_cache_max_dirs" => [
    "# Maximum number of directory listings held in memory. Least-recently-used",
    "# listings are dropped past this; a dropped directory is simply re-listed the",
    "# next time it is opened. 0 removes the limit (the old unbounded behaviour,",
    "# which on a large tree can cost hundreds of MB of RAM)."]
  | "auto_keep_locally_modified_files" => [
    "# Keep a local copy of files you save here once they are uploaded, so reopening",
    "# them needs no download. It is ordinary cache: cache_max_size_bytes,",
    "# cache_auto_purge_days and \"purge local cache\" clear it."]
  | "cache_streamed_reads" => [
    "# When enabled, file data read via streaming (e.g. media playback) is saved to",
    "# the local cache so subsequent opens are served from disk. Increases disk usage",
    "# but avoids re-downloading the same file on repeated access."]
  | "cleanup_stale_gio_temps" => [
    "# GTK/GIO apps write files atomically via a .goutputstream-* or .xdp-* temp file",
    "# that is renamed to the final name within seconds. When enabled, ncRS deletes",
    "# any such file found on the server immediately and never lists them to the file",
    "# manager. Orphans from crashed copies are cleaned up on the next directory open."]
  | "fuse_passthrough" => [
    "# Zero-copy reads for fully-cached files: once a file is downloaded and",
    "# verified fresh, the kernel serves reads directly from the backing cache",
    "# file, bypassing ncRS entirely. Requires Linux 6.9+ and the packaged",
    "# ncrs-passthrough helper (the only file given CAP_SYS_ADMIN);",
    "# silently falls back to normal reads when either is unavailable. Can be",
    "# toggled live from the tray/settings without remounting."]
  | "walker_rate_limit" => [
    "# Protect the server from folder crawlers. A process that walks the mount",
    "# (`find /`, a backup tool, a coding agent searching the disk) turns into one",
    "# server request per folder it enters. Past a short burst, such a process is",
    "# paced to this many uncached folder listings per second. Folders already in",
    "# the local cache are never slowed. Applies immediately, no remount needed."]
  | "stream_uploads" => [
    "# Once a new file has been written past stream_upload_threshold_mb (MiB), send it",
    "# to the server in 10 MiB pieces while it is still being written, so big copies",
    "# finish uploading soon after they are closed. The whole file stays on local disk",
    "# too: a program that rewrites an already-sent part just has it uploaded whole on",
    "# close. Only when the disk is low are sent pieces freed locally, so big copies",
    "# still fit; there such a rewrite gets a write error. 'Low' is free space under",
    "# stream_disk_reserve_mb (MiB; 0 = automatic, the larger of 2 GiB and 5% of the disk).",
    "# Set false to upload files only once closed. Applies to files opened after the change."]
  | "honor_server_locks" => [
    "# Honour Nextcloud file locks (files_lock app): a file someone else has locked",
    "# (open in Nextcloud Office, or locked from the web) shows read-only and cannot",
    "# be opened for writing. Off: it stays writable, and a save waits for the unlock.",
    "# Applies immediately, no remount needed."]
  | "app_lock_files" => [
    "# While an editor has a document open here (LibreOffice, Office, Vim or Kate,",
    "# seen by the lock or swap file it keeps next to it), lock the document on the",
    "# server so nobody else saves over it. The lock expires a minute after the",
    "# editor or ncrs stops. Needs honor_server_locks. Applies immediately."]
  | _ => []

def showBool (b : Bool) : Line := if b then "true".toList else "false".toList

/-- The settings below the credentials, in order. -/
def settingValues (s : ConfigSettings) : List (String × Line) := [
  ("aggressive_prefetch", showBool s.aggressivePrefetch),
  ("http3", showBool s.http3),
  ("max_concurrent_requests", s.maxConcurrentRequests.repr.toList),
  ("optimistic_listing", showBool s.optimisticListing),
  ("dir_cache_max_stale_mins", s.dirCacheMaxStaleMins.repr.toList),
  ("dir_cache_max_dirs", s.dirCacheMaxDirs.repr.toList),
  ("auto_keep_locally_modified_files", showBool s.autoKeepLocallyModifiedFiles),
  ("auto_keep_cached_files", showBool s.autoKeepCachedFiles),
  ("read_ahead_bytes", s.readAheadBytes.repr.toList),
  ("cache_max_size_bytes", s.cacheMaxSizeBytes.repr.toList),
  ("cache_auto_purge_days", s.cacheAutoPurgeDays.repr.toList),
  ("cache_cleanup_interval_secs", s.cacheCleanupIntervalSecs.repr.toList),
  ("cache_streamed_reads", showBool s.cacheStreamedReads),
  ("cleanup_stale_gio_temps", showBool s.cleanupStaleGioTemps),
  ("stale_gio_temp_mins", s.staleGioTempMins.repr.toList),
  ("fuse_passthrough", showBool s.fusePassthrough),
  ("walker_rate_limit", showBool s.walkerRateLimit),
  ("walker_listings_per_sec", s.walkerListingsPerSec.repr.toList),
  ("stream_uploads", showBool s.streamUploads),
  ("stream_upload_threshold_mb", s.streamUploadThresholdMb.repr.toList),
  ("stream_disk_reserve_mb", s.streamDiskReserveMb.repr.toList),
  ("honor_server_locks", showBool s.honorServerLocks),
  ("app_lock_files", showBool s.appLockFiles)]

def line (key : String) (value : Line) : Line := key.toList ++ ':' :: ' ' :: value

def optionalLine (printable : Char → Bool) (key : String) (value : Option Line) : List Line :=
  (value.map fun v => line key (debug printable v)).toList

def configLines (printable : Char → Bool) (c : Carried) (s : ConfigSettings) : List Line :=
  ["# ncRS Desktop configuration".toList, [], line "url" (debug printable c.url),
    line "username" (debug printable c.username)] ++ optionalLine printable "password" c.password ++
    optionalLine printable "bearer_token" c.bearerToken ++ optionalLine printable "auth_command"
      c.authCommand ++
    [line "mount_point" (debug printable s.mountPoint), line "user" (debug printable c.logUser), []] ++
    (settingValues s).flatMap fun x => (settingComment x.1).map String.toList ++ [line x.1 x.2]

/-- The text, each line with its line feed. -/
def configText (printable : Char → Bool) (c : Carried) (s : ConfigSettings) : Line :=
  (configLines printable c s).flatMap fun l => l ++ ['\n']

/-! ## Rewriting -/

/-- The configuration file where there is one. -/
inductive ConfigFile where
  /-- `read_to_string` fails. -/
  | unreadable
  | text (t : Line)
  deriving DecidableEq, Repr

/-- How `write_private` ends. -/
inductive PrivateWrite where
  | notOpened
  /-- Writing or syncing failed after the file was truncated. -/
  | cutShort (left : Line)
  | modeFailed
  | written
  deriving DecidableEq, Repr

structure SettingsIo where
  dirCreated : Bool := true
  write : PrivateWrite := .written
  deriving DecidableEq, Repr

inductive SaveError where
  | createConfigDir
  | writeConfig
  deriving DecidableEq, Repr

/-- `rewrite_config_settings`: how it ends, and the file afterwards. -/
def rewriteConfigSettings (yaml : Reader) (printable : Char → Bool) (io : SettingsIo)
    (file : Option ConfigFile) (s : ConfigSettings) : Except SaveError Unit × Option ConfigFile :=
  let existing := match file with
    | some (.text t) => t
    | _ => []
  let docs := (yaml.load existing).getD []
  let content := configText printable (carried docs) s
  if !io.dirCreated then (.error .createConfigDir, file)
  else
    match io.write with
    | .notOpened => (.error .writeConfig, file)
    | .cutShort left => (.error .writeConfig, some (.text left))
    | .modeFailed => (.error .writeConfig, some (.text content))
    | .written => (.ok (), some (.text content))

end Config

end Ncrs
