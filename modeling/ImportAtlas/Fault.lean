import ImportAtlas.Glob.Parse
import ImportAtlas.Path

/-!
# Faults

What stops a run before it has an answer, as causes; the wording is in one place.

* `ReadFault`: why a file cannot be read.
* `Fault`: what stops a run, with its `message` for people to read.
-/

namespace ImportAtlas

/-- Why a file cannot be read. -/
inductive ReadFault where
  | notFound
  | notDirectory
  | isDirectory
  | tooManyLinks
  | permissionDenied
  | notUtf8
deriving DecidableEq, Repr, Inhabited

/-- The text of a read fault, with the number of the system error where there is one. -/
def ReadFault.message : ReadFault → String
  | notFound => "No such file or directory (os error 2)"
  | notDirectory => "Not a directory (os error 20)"
  | isDirectory => "Is a directory (os error 21)"
  | tooManyLinks => "Too many levels of symbolic links (os error 40)"
  | permissionDenied => "Permission denied (os error 13)"
  | notUtf8 => "stream did not contain valid UTF-8"

/-- Why there is nothing to begin a graph with. -/
inductive NoEntry where
  | noneGiven
  | allExcluded
  | unsupported (file : Path)
  | missing (file : String)
  | noneValid
  | noEntrypoints
  | noneInGraph
deriving DecidableEq, Repr, Inhabited

def NoEntry.reason : NoEntry → String
  | noneGiven => "at least one file must be provided"
  | allExcluded => "every entry file is excluded"
  | unsupported file => "file \"" ++ file.text ++ "\" is not supported"
  | missing file => "file " ++ file ++ " does not exist"
  | noneValid => "no valid files were provided"
  | noEntrypoints => "pass entry files or set check.entrypoints in .dep-tree.toml"
  | noneInGraph => "no entry file made it into the graph"

/-- What stops a run. -/
inductive Fault where
  /-- A pattern of files to leave out is malformed; `trimmed` is what is left of it as a glob. -/
  | badExclude (pattern trimmed : String) (fault : Glob.Fault)
  | badRule (pattern : String) (fault : Glob.Fault)
  | missingEndpoint (id : Path)
  | unreadableConfig (file : Path) (fault : ReadFault)
  | invalidConfig (file : Path)
  | configExists (file : Path)
  | noEntryFiles (reason : NoEntry)
  | entryRead (file : Path) (fault : ReadFault)
  | io (fault : ReadFault)
  | json
  | cancelled
deriving DecidableEq, Repr, Inhabited

def Fault.message : Fault → String
  | badExclude pattern trimmed fault =>
    "configuration error: exclude pattern '" ++ pattern ++ "' is not correctly formatted: " ++
      fault.message trimmed
  | badRule pattern fault =>
    "configuration error: rule pattern '" ++ pattern ++ "' is not correctly formatted: " ++
      fault.message pattern
  | missingEndpoint id =>
    "configuration error: edge endpoint " ++ id.text ++ " is not a graph node"
  | unreadableConfig file fault =>
    "configuration error: cannot read " ++ file.text ++ ": " ++ fault.message
  | invalidConfig file => "configuration error: invalid " ++ file.text
  | configExists file => "configuration error: " ++ file.text ++ " already exists"
  | noEntryFiles reason => "no entry files: " ++ reason.reason
  | entryRead file fault => "failed to read entry file " ++ file.text ++ ": " ++ fault.message
  | io fault => "IO error: " ++ fault.message
  | json => "JSON error"
  | cancelled => "graph build cancelled"

end ImportAtlas
