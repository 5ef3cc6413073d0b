import RepoAudit.Text.Match

/-!
# Context of a repository

The business domain that a repository's documents suggest, and the language ecosystems that its
manifests show. Domains are told by families of keywords in a fixed order of priority.
-/

namespace RepoAudit

/-- A business domain. -/
inductive Domain where
  | commerce
  | aiIntegration
  | payments
  | content
  | unspecified
deriving DecidableEq, Repr

namespace Domain

open RepoAudit.Text

/-- Every domain, in order of priority. -/
def all : List Domain := [.commerce, .aiIntegration, .payments, .content, .unspecified]

/-- The name of a domain. -/
def name : Domain → String
  | .commerce => "e-commerce"
  | .aiIntegration => "AI integration"
  | .payments => "payments"
  | .content => "content/cms"
  | .unspecified => "unspecified"

/-- The domain of a name. -/
def ofName? (s : String) : Option Domain :=
  all.find? fun d => d.name == s

/-- The keywords that suggest a domain wherever they occur. -/
def keywords : Domain → List String
  | .commerce => ["shopify", "e-commerce", "ecommerce", "storefront"]
  | .aiIntegration => ["openai", "llm", "gpt"]
  | .payments => ["payment", "stripe"]
  | .content => ["cms", "content"]
  | .unspecified => []

/-- The keyword that suggests a domain only where it stands as a whole word. -/
def wholeKeyword? : Domain → Option String
  | .aiIntegration => some "ai"
  | _ => none

/-- Whether a text in lower case suggests a domain. -/
def suggestedBy (text : List Char) (d : Domain) : Bool :=
  d.keywords.any (fun k => Text.contains text k.toList) ||
    d.wholeKeyword?.any fun k => matchesAnywhere (wholeWord k.toList) text

/-- The domain of a text in lower case: the first in order of priority that it suggests. -/
def classify (text : List Char) : Domain :=
  (all.find? (suggestedBy text)).getD .unspecified

end Domain

/-- A language ecosystem. -/
inductive Ecosystem where
  | javaScript
  | python
  | ruby
  | go
  | rust
  | php
  | java
deriving DecidableEq, Repr

namespace Ecosystem

/-- Every ecosystem, in the order of reports. -/
def all : List Ecosystem := [.javaScript, .python, .ruby, .go, .rust, .php, .java]

/-- The name of an ecosystem. -/
def name : Ecosystem → String
  | .javaScript => "JavaScript"
  | .python => "Python"
  | .ruby => "Ruby"
  | .go => "Go"
  | .rust => "Rust"
  | .php => "PHP"
  | .java => "Java"

/-- The ecosystem of a name. -/
def ofName? (s : String) : Option Ecosystem :=
  all.find? fun e => e.name == s

/-- The files at the root of a repository that show an ecosystem. -/
def manifests : Ecosystem → List String
  | .javaScript => ["package.json"]
  | .python => ["requirements.txt", "pyproject.toml"]
  | .ruby => ["Gemfile"]
  | .go => ["go.mod"]
  | .rust => ["Cargo.toml"]
  | .php => ["composer.json"]
  | .java => ["pom.xml", "build.gradle"]

end Ecosystem

end RepoAudit
