import Ncrs.Native.Path

/-!
# The remote wipe

Model of `remote_wipe.rs` (`execute_wipe`), of the branch of the connectivity monitor that runs
it and reports to the server, and of what `configuration_parser` reads of the credentials.

A text is given by what stands between its line feeds (`split('\n')`), so `content.lines()` only
drops a last empty piece and the carriage return before a line feed. The YAML reader and the check
of the server's URL are third-party code and are parameters: the reader yields the first
document's root mapping with the line on which each of its entries starts.
-/

namespace Ncrs

/-- A text, split at its line feeds. -/
abbrev Text := List String

/-! ## Reading the configuration -/

/-- As much of a YAML value as is read of the settings below. -/
inductive YamlValue where
  | str (s : String)
  | bool (b : Bool)
  | other
  deriving DecidableEq, Repr

/-- An entry of the root mapping. -/
structure YamlEntry where
  /-- The line on which its key starts. -/
  line : Nat
  key : String
  value : YamlValue
  /-- It stands on one line, and nothing else in the text refers to it or to a part of it. -/
  alone : Bool
  deriving DecidableEq, Repr

/-- The root mapping of the first document. -/
structure YamlRoot where
  /-- It is a block mapping in column 0. -/
  block : Bool
  entries : List YamlEntry
  /-- The lines on which a node starts that an alias of the document refers to. -/
  referred : List Nat
  deriving DecidableEq, Repr

/-- `YamlLoader::load_from_str`, of a text whose first document is a mapping. -/
abbrev YamlLoader := Text → Option YamlRoot

namespace YamlValue

def asStr : YamlValue → Option String
  | str s => some s
  | _ => none

def asBool : YamlValue → Option Bool
  | bool b => some b
  | _ => none

end YamlValue

/-- `doc[key]`. -/
def YamlRoot.get (r : YamlRoot) (key : String) : Option YamlValue :=
  (r.entries.find? fun e => e.key = key).map (·.value)

/-- The fields of `MountOptions` that log in. -/
structure Credentials where
  password : Option String
  bearerToken : Option String
  authCommand : Option String
  deriving DecidableEq, Repr

/-- `configuration_parser`, as far as its result depends on the text: whether it accepts it, and
    the credentials. `validServer` is the check of the URL. -/
def configurationParser (yaml : YamlLoader) (validServer : String → Option String → Bool → Bool)
    (text : Text) : Option Credentials :=
  match yaml text with
  | none => none
  | some doc =>
    match (doc.get "url").bind YamlValue.asStr with
    | none => none
    | some url =>
      let username := (doc.get "username").bind YamlValue.asStr
      let allowInsecureHttp := ((doc.get "allow_insecure_http").bind YamlValue.asBool).getD false
      if validServer url username allowInsecureHttp then
        some {
          password := (doc.get "password").bind YamlValue.asStr
          bearerToken := (doc.get "bearer_token").bind YamlValue.asStr
          authCommand := (doc.get "auth_command").bind YamlValue.asStr }
      else none

/-- No credential is set to anything but the empty string. -/
def Credentials.Blank (c : Credentials) : Prop :=
  c.password.getD "" = "" ∧ c.bearerToken.getD "" = "" ∧ c.authCommand.getD "" = ""

instance (c : Credentials) : Decidable c.Blank := inferInstanceAs (Decidable (_ ∧ _ ∧ _))

/-! ## Clearing the credentials -/

/-- `char::is_whitespace`. -/
def isWhitespace (c : Char) : Bool :=
  let n := c.toNat
  (9 ≤ n && n ≤ 13) || n = 32 || n = 0x85 || n = 0xA0 || n = 0x1680 || (0x2000 ≤ n && n ≤ 0x200A)
    || n = 0x2028 || n = 0x2029 || n = 0x202F || n = 0x205F || n = 0x3000

def trimStart (line : String) : List Char := line.toList.dropWhile isWhitespace

def stripCr (line : String) : String :=
  if line.toList.getLast? = some '\r' then String.ofList line.toList.dropLast else line

/-- `content.lines()`: a last line that no line feed ends keeps its carriage return. -/
def lines : Text → List String
  | [] => []
  | [last] => if last = "" then [] else [last]
  | line :: rest => stripCr line :: lines rest

/-- The settings `execute_wipe` clears. -/
def credentialKeys : List String := ["password", "bearer_token", "auth_command"]

/-- The line a setting is cleared to. -/
def emptied (key : String) : String := key ++ ": \"\""

/-- `trimmed.starts_with("<key>:")`. -/
def startsWithKey (key line : String) : Bool := (key ++ ":").toList.isPrefixOf (trimStart line)

def clearLine (line : String) : String :=
  if startsWithKey "password" line then emptied "password"
  else if startsWithKey "bearer_token" line then emptied "bearer_token"
  else if startsWithKey "auth_command" line then emptied "auth_command"
  else line

/-- What `execute_wipe` writes back, joined with line feeds. -/
def clearText (text : Text) : Text := (lines text).map clearLine

/-! ## The wipe -/

/-- The files a wipe is about. -/
structure WipeFiles where
  /-- What the cache directory holds, if it exists. -/
  cacheDir : Option (List PathBuf)
  config : Option Text
  deriving DecidableEq, Repr

/-- How rewriting the configuration ends: `write_private` truncates the file when it opens it. -/
inductive WriteOutcome where
  | written
  | notOpened (error : String)
  | cutShort (error : String) (left : Text)
  deriving DecidableEq, Repr

/-- How the file operations of a wipe end. -/
structure WipeOutcomes where
  /-- `Path::exists` is false as well when the metadata cannot be read. -/
  cacheStat : Bool := true
  /-- The error of `remove_dir_all` and what it leaves of the directory. -/
  removeDirAll : Option (String × List PathBuf) := none
  configStat : Bool := true
  /-- The error of `read_to_string`. -/
  readConfig : Option String := none
  writePrivate : WriteOutcome := .written
  deriving DecidableEq, Repr

/-- What a wipe did: its result, the files it left, and whether it went at the credentials. -/
structure WipeRun where
  result : Except String Unit
  files : WipeFiles
  attempted : Bool

/-- The second half of `execute_wipe`. -/
def clearConfig (o : WipeOutcomes) (files : WipeFiles) : WipeRun :=
  match files.config with
  | none => { result := .ok (), files := files, attempted := true }
  | some content =>
    if !o.configStat then { result := .ok (), files := files, attempted := false }
    else
      match o.readConfig with
      -- Only a warning: the wipe counts as done.
      | some _ => { result := .ok (), files := files, attempted := true }
      | none =>
        match o.writePrivate with
        | .written =>
          { result := .ok (), files := { files with config := some (clearText content) }
            attempted := true }
        | .notOpened e =>
          { result := .error s!"failed to clear config credentials: {e}", files := files
            attempted := true }
        | .cutShort e left =>
          { result := .error s!"failed to clear config credentials: {e}"
            files := { files with config := some left }, attempted := true }

def executeWipe (cacheDir : PathBuf) (o : WipeOutcomes) (files : WipeFiles) : WipeRun :=
  if files.cacheDir.isSome && o.cacheStat then
    match o.removeDirAll with
    | some (e, left) =>
      { result := .error s!"failed to delete cache dir {cacheDir.display}: {e}"
        files := { files with cacheDir := some left }, attempted := false }
    | none => clearConfig o { files with cacheDir := none }
  else clearConfig o files

/-- What the monitor did after its credentials were rejected. -/
structure MonitorRun where
  files : WipeFiles
  attempted : Bool := true
  /-- `confirm_wipe` reported the wipe to the server. -/
  confirmed : Bool := false
  /-- The mount shuts down as wiped; otherwise it goes offline. -/
  shutdown : Bool := false

/-- The branch of the connectivity monitor for rejected credentials. -/
def authRejected (checkWipe : Except String Bool) (cacheDir : PathBuf) (o : WipeOutcomes)
    (files : WipeFiles) : MonitorRun :=
  match checkWipe with
  | .ok true =>
    -- An error of the wipe is logged and the confirmation sent all the same.
    let run := executeWipe cacheDir o files
    { files := run.files, attempted := run.attempted, confirmed := true, shutdown := true }
  | .ok false | .error _ => { files := files }

end Ncrs
