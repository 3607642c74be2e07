import AtomicCss.DesignSystem.Builder
import AtomicCss.Order
import AtomicCss.Theme.Source
import AtomicCss.Toml.Document

/-! Configurations: a class prefix and what a theme adds to the standard one.
They are read from TOML documents. -/
namespace AtomicCss

inductive ConfigError where
  /-- There is no text to read. -/
  | unreadable
  /-- The text is no document, or a part of it is not of the right kind. -/
  | malformed
  | registration (e : RegistrationError)
  deriving DecidableEq, Repr

def ConfigError.message : ConfigError → Text
  | unreadable => "failed to read config"
  | malformed => "failed to parse config"
  | registration e => e.message

/-- What a configuration says about the theme. -/
structure ThemeConfig where
  /-- `empty` starts from nothing, any other name from the standard theme. -/
  name : Text := "default"
  /-- For each family of colours, the value of each shade. -/
  colors : List (Text × List (Text × Text)) := []
  /-- The tokens that are given one by one. -/
  tokens : List (Text × Text) := []
  /-- A style sheet, applied last. -/
  css : Option Text := none
  deriving DecidableEq, Repr

structure Config where
  lead : Option Text := none
  theme : ThemeConfig := {}
  deriving DecidableEq, Repr

namespace Toml.Value

def asText? : Value → Option Text
  | text t => some t
  | _ => none

/-- The entries of a table. A date or a time counts as a table of one entry. -/
def asEntries? : Value → Option Entries
  | table _ entries => some entries
  | moment t => some [("$__toml_private_datetime", text t)]
  | _ => none

/-- The entries of a table of texts. -/
def asTexts? (v : Value) : Option (List (Text × Text)) :=
  v.asEntries?.bind fun entries => entries.mapM fun (key, v) => v.asText?.map fun t => (key, t)

/-- The entries of a table of tables of texts. -/
def asTextTables? (v : Value) : Option (List (Text × List (Text × Text))) :=
  v.asEntries?.bind fun entries => entries.mapM fun (key, v) => v.asTexts?.map fun ts => (key, ts)

end Toml.Value

namespace ThemeConfig

/-- Reads the parts, each of which may be left out. -/
def ofParts? (name colors tokens css : Option Toml.Value) : Option ThemeConfig := do
  let standard : ThemeConfig := {}
  let name ← name.elim (some standard.name) Toml.Value.asText?
  let colors ← colors.elim (some []) Toml.Value.asTextTables?
  let tokens ← tokens.elim (some []) Toml.Value.asTexts?
  let css ← css.elim (some none) fun v => v.asText?.map some
  some { name, colors, tokens, css }

/-- Reads a theme, which is a table or a list of its parts in their order. -/
def ofToml? : Toml.Value → Option ThemeConfig
  | .list vs => ofParts? vs[0]? vs[1]? vs[2]? vs[3]?
  | .tables vs => ofParts? vs[0]? vs[1]? vs[2]? vs[3]?
  | v =>
    v.asEntries?.bind fun entries =>
      ofParts? (entries.lookup "name".toList) (entries.lookup "colors".toList)
        (entries.lookup "variables".toList) (entries.lookup "css".toList)

/-- In the order of the code points of their keys. -/
def sorted {α : Type} (entries : List (Text × α)) : List (Text × α) :=
  entries.mergeSort fun a b => dictionaryLe (a.1.map Char.toNat) (b.1.map Char.toNat)

/-- The token of a shade; the shade `DEFAULT` is the family itself. -/
def shadeName (family shade : Text) : Text :=
  if shade = Theme.defaultKey then "--color-" ++ family else "--color-" ++ family ++ '-' :: shade

/-- The declarations of a configuration in their order: colours by family and
shade, then the tokens that are named like custom properties, by name. -/
def declarations (c : ThemeConfig) : List (Text × Text) :=
  (sorted c.colors).flatMap (fun (family, shades) =>
    (sorted shades).map fun (shade, value) => (shadeName family shade, value)) ++
  (sorted c.tokens).filter fun (name, _) => List.isPrefixOf "--".toList name

/-- The theme that the configuration describes. -/
def theme (c : ThemeConfig) : Theme :=
  let base := if c.name = "empty" then Theme.empty else Theme.standard
  let declared := c.declarations.foldl (fun theme (name, value) => theme.declare name value) base
  match c.css with
  | some css => declared.apply css
  | none => declared

end ThemeConfig

namespace Config

def ofToml? (entries : Toml.Entries) : Option Config := do
  let lead ← (entries.lookup "prefix".toList).elim (some none) fun v => v.asText?.map some
  let theme ← (entries.lookup "theme".toList).elim (some {}) ThemeConfig.ofToml?
  some { lead, theme }

/-- Reads a configuration. -/
def parse (t : Text) : Except ConfigError Config :=
  match (Toml.parse? t).bind ofToml? with
  | some c => .ok c
  | none => .error .malformed

/-- Reads a configuration from the contents of a file, if there is one. -/
def ofFile (contents : Option Text) : Except ConfigError Config :=
  match contents with
  | some t => parse t
  | none => .error .unreadable

/-- The design system that the configuration describes. -/
def designSystem (c : Config) : Except ConfigError DesignSystem :=
  let builder := DesignSystem.Builder.standard c.theme.theme
  match c.lead with
  | none => .ok builder.build
  | some lead =>
    match builder.withPrefix lead with
    | .ok builder => .ok builder.build
    | .error e => .error (.registration e)

end Config
end AtomicCss
