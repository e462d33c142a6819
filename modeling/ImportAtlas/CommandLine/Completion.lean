import ImportAtlas.CommandLine.Options

/-!
# Completion

What a shell is told so that it completes the names of the commands.
-/

namespace ImportAtlas

namespace CommandLine

def programName : String := "dep-tree"

def completion (shell : String) : String :=
  let names := " ".intercalate commandNames
  match shell with
  | "bash" => "complete -W '" ++ names ++ "' " ++ programName ++ "\n"
  | "fish" => "complete -c " ++ programName ++ " -a '" ++ names ++ "'\n"
  | "zsh" => "compctl -k '(" ++ names ++ ")' " ++ programName ++ "\n"
  | "elvish" =>
    "set edit:completion:arg-completer[" ++ programName ++ "] = \x7b|@words| all [" ++ names ++
      "] \x7d\n"
  | _ =>
    "Register-ArgumentCompleter -Native -CommandName " ++ programName ++
      " -ScriptBlock \x7b -split '" ++ names ++ "' \x7d\n"

end CommandLine

end ImportAtlas
