import Ncrs.Native.LoginFlow

/-!
# Hrefs and remote paths

Model of `build_url` and `href_to_remote_path` (`propfind.rs`) and `dav_url` (`webdav_ops.rs`). The
`percent-encoding` crate is an argument (`PercentEncoding.Coder`), and so is the path that the `url` crate finds
in a URL (`urlPath`).
-/

namespace Ncrs

open PercentEncoding (Coder)

/-- `PATH_ENCODE`, the characters that are not ASCII apart. -/
def pathEncodeSet (c : Char) : Bool := c.toNat < 0x20 || c.toNat = 0x7f || " #%?[]{}".toList.contains c

/-- `PATH_COMPONENT`, the characters that are not ASCII apart. -/
def pathComponentSet (c : Char) : Bool := !(c.isAlphanum || "-._~".toList.contains c)

/-- The text of a path below the root. -/
def relText (path : PathBuf) : Line := ['/'].intercalate (path.map String.toList)

def buildUrl (k : Coder) (webdavUrl : Line) (path : PathBuf) : Line :=
  let base := webdavUrl.rdropWhile (· = '/')
  if path = [] then base ++ ['/'] else base ++ '/' :: k.encode pathEncodeSet (relText path)

def davUrl (k : Coder) (baseUrl username : Line) (path : PathBuf) : Line :=
  let encoded := ['/'].intercalate (path.map fun name => k.encode pathComponentSet name.toList)
  baseUrl.rdropWhile (· = '/') ++ "/remote.php/dav/files/".toList ++ k.encode pathComponentSet username ++
    '/' :: encoded

/-- The path part of a URL without query and fragment: what comes after the scheme and the host. -/
def pathPart (url : Line) : Line := ((url.dropWhile (· ≠ ':')).drop 3).dropWhile (· ≠ '/')

def webdavPrefix (urlPath : Line → Option Line) (webdavUrl : Line) : Line :=
  match urlPath webdavUrl with
  | some path => path.rdropWhile (· = '/')
  | none => []

/-- `PathBuf::from` for an absolute path. -/
def pathOf (t : Line) : PathBuf :=
  ((t.splitOn '/').filter fun name => name ≠ [] && name ≠ ['.']).map String.ofList

/-- `split(['/', '\\'])`. -/
def segments (t : Line) : List Line := t.splitOnP fun c => c = '/' || c = '\\'

def hrefToRemotePath (k : Coder) (href pre : Line) : Option PathBuf :=
  let decoded := k.decode href
  if (segments decoded).any (· = "..".toList) then none
  else if decoded.any isControl then none
  else
    let trimmed := decoded.rdropWhile (· = '/')
    let remote := if !pre.isEmpty && pre.isPrefixOf trimmed then trimmed.drop pre.length else trimmed
    some (if remote.isEmpty then [] else if remote.head? = some '/' then pathOf remote
      else pathOf ('/' :: remote))

end Ncrs
