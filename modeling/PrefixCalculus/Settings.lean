import PrefixCalculus.RootSearch
import PrefixCalculus.Toml.Format
set_option autoImplicit false

/-!
The settings of the calculus and their document: one section for each of root search, derivatives
and printing. A section or field that is left out has its default. The written document states every
field.
-/

namespace PrefixCalculus

structure Settings where
  search : SearchSettings
  /-- The longest loop that a derivative unrolls. -/
  unrollLimit : UInt64
  lineWidth : UInt64

namespace Settings

open Toml

def default : Settings where
  search := SearchSettings.default
  unrollLimit := Expression.unrollLimit
  lineWidth := 80

def searchSection (s : SearchSettings) : Section where
  name := "newton"
  fields :=
    [("step_tolerance", .float s.stepTolerance),
      ("abs_tolerance", .float s.valueTolerance),
      ("max_iterations", .integer s.maxIterations.toNat),
      ("lower_bound", .float s.lowerBound),
      ("upper_bound", .float s.upperBound)]

def wordSection (name key : String) (n : UInt64) : Section :=
  ⟨name, [(key, .integer n.toNat)]⟩

def sections (s : Settings) : List Section :=
  [searchSection s.search, wordSection "diff" "max_unrolled_iterations" s.unrollLimit,
    wordSection "pretty" "width" s.lineWidth]

section

variable (F : Format)

def floatField {α : Type} (name : String) (put : Float → α → α) : RecordField F.Value α :=
  ⟨name, fun v a => (F.float? v).map (put · a)⟩

def wholeField {α : Type} (name : String) (bound : Nat) (put : Nat → α → α) :
    RecordField F.Value α :=
  ⟨name, fun v a => (F.whole? bound v).map (put · a)⟩

def recordField {α β : Type} (name : String) (default : β) (fields : List (RecordField F.Value β))
    (put : β → α → α) : RecordField F.Value α :=
  ⟨name, fun v a => (F.record? default fields v).map (put · a)⟩

def searchFields : List (RecordField F.Value SearchSettings) :=
  [floatField F "step_tolerance" fun x s => { s with stepTolerance := x },
    floatField F "abs_tolerance" fun x s => { s with valueTolerance := x },
    wholeField F "max_iterations" UInt32.size fun n s => { s with maxIterations := UInt32.ofNat n },
    floatField F "lower_bound" fun x s => { s with lowerBound := x },
    floatField F "upper_bound" fun x s => { s with upperBound := x }]

def wordFields (name : String) : List (RecordField F.Value UInt64) :=
  [wholeField F name UInt64.size fun n _ => UInt64.ofNat n]

def fields : List (RecordField F.Value Settings) :=
  [recordField F "newton" default.search (searchFields F) fun search s => { s with search },
    recordField F "diff" default.unrollLimit (wordFields F "max_unrolled_iterations")
      fun unrollLimit s => { s with unrollLimit },
    recordField F "pretty" default.lineWidth (wordFields F "width")
      fun lineWidth s => { s with lineWidth }]

/-- The document of the settings, if the format can hold them. -/
def save? (s : Settings) : Option String :=
  F.write? s.sections

def load? (text : String) : Option Settings :=
  (F.parse? text).bind (F.record? default (fields F))

end

end Settings

end PrefixCalculus
