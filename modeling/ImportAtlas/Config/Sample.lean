/-!
# Sample settings

The text of a settings file to begin with.
-/

namespace ImportAtlas

namespace Config

def sampleLines : List String :=
  ["# dep-tree configuration",
    "",
    "# Files matching these globs are left out of the graph.",
    "exclude = [\"**/*.test.ts\", \"**/__mocks__/**\"]",
    "",
    "# Follow re-exports to the module that declares the symbol.",
    "unwrap_exports = false",
    "",
    "[js]",
    "tsconfig_paths = true",
    "workspaces = true",
    "# aliases = \x7b \"@app\" = \"src\" \x7d",
    "# workspace_roots = [\"packages/ui\"]",
    "",
    "[python]",
    "exclude_conditional_imports = false",
    "",
    "[entropy]",
    "# \"symbols\" weighs edges by imported names, \"edges\" counts each edge once.",
    "weighting = \"symbols\"",
    "",
    "[tree]",
    "overview = false",
    "",
    "[check]",
    "entrypoints = [\"src/index.ts\"]",
    "allow_circular_dependencies = false",
    "# Edges no rule matches are violations; set \"allow\" to only enforce deny rules.",
    "default_policy = \"deny\"",
    "",
    "[[check.rules]]",
    "policy = \"allow\"",
    "from = \"src/**\"",
    "to = \"src/**\"",
    "",
    "[[check.rules]]",
    "policy = \"deny\"",
    "from = \"src/utils/**\"",
    "to = \"src/features/**\"",
    "reason = \"utils must not depend on features\""]

/-- A settings file with every section, and comments on what it says. -/
def sample : String :=
  String.join (sampleLines.map (· ++ "\n"))

end Config

end ImportAtlas
