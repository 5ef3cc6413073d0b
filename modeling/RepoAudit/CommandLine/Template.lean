/-!
# The default configuration

The file that a new configuration starts from. It spells out every default.
-/

namespace RepoAudit.CommandLine

/-- The text of the default configuration. -/
def defaultConfiguration : String :=
  "# security-auditor configuration\n" ++
  "#\n" ++
  "# Lookup order: --config <file>, .security-auditor/config.toml,\n" ++
  "# security-auditor.toml, ~/.security-auditor/config.toml.\n" ++
  "\n" ++
  "[settings]\n" ++
  "# Snapshots, logs, fix diffs and clones of remote repositories.\n" ++
  "# Relative paths resolve against the working directory.\n" ++
  "store_dir = \".security-auditor\"\n" ++
  "\n" ++
  "# Extra glob patterns (relative to the repository root) to skip while scanning.\n" ++
  "# node_modules, .git and the store directory are always skipped.\n" ++
  "scan_exclude = []\n" ++
  "\n" ++
  "# Repositories for `run` when neither --repos nor REPO_LIST is set.\n" ++
  "repos = []\n" ++
  "\n" ++
  "[tools]\n" ++
  "# External analyzers (bandit, eslint, brakeman, pip-audit) run when installed\n" ++
  "# and the repository uses their ecosystem.\n" ++
  "enabled = true\n" ++
  "disabled = []\n" ++
  "\n" ++
  "# Known-vulnerable pins checked by the dependency profile.\n" ++
  "[[advisories]]\n" ++
  "manifest = \"requirements.txt\"\n" ++
  "vulnerable = \"shopify-sdk==1.2.3\"\n" ++
  "fixed = \"shopify-sdk==2.0.1\"\n" ++
  "description = \"Outdated dependency missing auth checks\"\n"

/-- The name and the version of the program. -/
def versionLine : String := "security-auditor 0.3.2\n"

/-- How the command line is written. -/
def usage : String :=
  "Usage: security-auditor [--config <file>] [--store <directory>] [--verbose] <command>\n" ++
  "\n" ++
  "Commands:\n" ++
  "  scan <repo> [--profile <profile>]\n" ++
  "  fix <issue id> --repo <repo>\n" ++
  "  verify <issue id> --repo <repo>\n" ++
  "  commit <issue id> --repo <repo>\n" ++
  "  status [--repo <repo>] [--json]\n" ++
  "  run [--repos <repo,repo>] [--profile <profile>]\n" ++
  "  init [--force]\n" ++
  "\n" ++
  "Profiles: xss, prompt-injection, dependency, remote-code-execution, all\n"

end RepoAudit.CommandLine
