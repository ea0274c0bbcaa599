import Ncrs.ForStd.TextLines
import Ncrs.Native.LoginFlow

/-!
# Baloo's configuration

Model of the `baloofilerc` editing of `desktop/indexer/baloo.rs`: what `excludes` reads from the
`[General]` group, and what `with_exclude` makes of the text. The home directory, which the code asks the
system for, is an argument.
-/

namespace Ncrs

namespace Baloo

open TextLines (unlines)

/-- `EXCLUDE_KEY`. -/
def excludeKey : Line := "exclude folders".toList

/-! ## Folders -/

def expandHome (home : Option Line) (s : Line) : Line :=
  match "$HOME".toList.isPrefixOf s, home with
  | true, some home => home ++ s.drop 5
  | _, _ => s

def sameFolder (home : Option Line) (a b : Line) : Bool :=
  (expandHome home a).rdropWhile (· = '/') = (expandHome home b).rdropWhile (· = '/')

/-! ## Lists -/

/-- The loop of `split_list`, with the entry it has begun. -/
def splitListFrom (cur : Line) : Line → List Line
  | [] => if cur.isEmpty then [] else [cur]
  | c :: rest =>
    if c = '\\' then
      match rest with
      | [] => if cur.isEmpty then [] else [cur]
      | n :: rest => splitListFrom (cur ++ [n]) rest
    else if c = ',' then cur :: splitListFrom [] rest
    else splitListFrom (cur ++ [c]) rest

def splitList (v : Line) : List Line := splitListFrom [] v

/-- `i.replace('\\', "\\\\").replace(',', "\\,")`. -/
def escapeEntry (i : Line) : Line :=
  let i := i.flatMap fun c => if c = '\\' then ['\\', '\\'] else [c]
  i.flatMap fun c => if c = ',' then ['\\', ','] else [c]

def joinList (items : List Line) : Line := [','].intercalate (items.map escapeEntry)

/-! ## The text -/

/-- The key, without flags such as `[$e]`. -/
def isExcludeKey (key : Line) : Bool := trim ((trim key).splitFirst '[').1 = excludeKey

/-- A line that begins a group. -/
def isGroup (t : Line) : Bool := t.head? = some '[' && !t.contains '='

def general : Line := "[General]".toList

/-- The loop of `excludes`. -/
def excludesFrom (inGeneral : Bool) : List Line → List Line
  | [] => []
  | line :: rest =>
    let t := trim line
    if isGroup t then excludesFrom (t = general) rest
    else if inGeneral then
      match t.splitFirst '=' with
      | (k, some v) => if isExcludeKey k then splitList v else excludesFrom inGeneral rest
      | (_, none) => excludesFrom inGeneral rest
    else excludesFrom inGeneral rest

def excludes (rc : Line) : List Line := excludesFrom false (TextLines.lines rc)

section

variable (home : Option Line) (folder : Line) (add : Bool)

/-- The line for an entry of its own. -/
def newEntry : Line := excludeKey ++ "[$e]=".toList ++ joinList [folder]

/-- What is written where there is no `exclude folders` line. -/
def withoutKey (all : List Line) (group : Option Nat) : List Line :=
  if add then
    match group with
    | some i => all.insertIdx (i + 1) (newEntry folder)
    | none =>
      let all := if all.getLast?.any fun l => trim l != [] then all ++ [[]] else all
      all ++ [general, newEntry folder]
  else all

/-- The loop of `with_exclude` from line `i` on, with the last `[General]` line so far. -/
def editFrom (all : List Line) (i : Nat) (inGeneral : Bool) (group : Option Nat) : List Line → List Line
  | [] => withoutKey folder add all group
  | line :: rest =>
    let t := trim line
    if isGroup t then
      editFrom all (i + 1) (t = general) (if t = general then some i else group) rest
    else if !inGeneral then editFrom all (i + 1) inGeneral group rest
    else
      match t.splitFirst '=' with
      | (k, some v) =>
        if isExcludeKey k then
          let current := splitList v
          if add && current.any fun e => sameFolder home e folder then all
          else
            let items := current.filter fun e => !sameFolder home e folder
            let items := if add then items ++ [folder] else items
            all.set i (trim k ++ '=' :: joinList items)
        else editFrom all (i + 1) inGeneral group rest
      | (_, none) => editFrom all (i + 1) inGeneral group rest

/-- `with_exclude`; its `finish` is `unlines`. -/
def withExclude (rc : Line) : Line :=
  let all := TextLines.lines rc
  unlines (editFrom home folder add all 0 false none all)

end

end Baloo

end Ncrs
