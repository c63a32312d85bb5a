import ScoreLayout.Layout.Alignment
import ScoreLayout.Layout.Filling
import ScoreLayout.Layout.PageBreaks
import ScoreLayout.Layout.Placement
import ScoreLayout.Layout.Positioning
import ScoreLayout.Layout.Preparation
import ScoreLayout.Layout.Stacking
import ScoreLayout.Query

/-!
# The layout engine

An engine joins options and metrics, and runs the passes of a layout in their order.

## Main definitions

* `Engine` — options within their ranges, and metrics.
* `LayoutPass`, `Engine.run` — one pass.
* `Engine.layout` — all passes in order.
-/

namespace ScoreLayout

variable {α : Type} [Scalar α]

/-- What a layout is run with. The options are within their ranges. -/
structure Engine (α : Type) where
  options : LayoutOptions α
  metrics : GlyphMetrics α

/-- The passes of a layout, in the order in which they run. -/
inductive LayoutPass where
  | prepare
  | align
  | space
  | breakSystems
  | stackStaves
  | breakPages
  | fillLines
  | fillPages
  | place
deriving DecidableEq, Repr

/-- All passes in order. -/
def LayoutPass.all : List LayoutPass :=
  [.prepare, .align, .space, .breakSystems, .stackStaves, .breakPages, .fillLines, .fillPages,
    .place]

namespace Engine

/-- The engine for options, which are moved into their ranges. -/
def ofOptions (options : LayoutOptions α) (metrics : GlyphMetrics α) : Engine α :=
  ⟨options.normalized, metrics⟩

/-- The engine for the options that hold unless others are given. -/
def default : Engine α := ofOptions .default .default

/-- One pass of a layout. -/
def run (e : Engine α) (d : Document α) : LayoutPass → Outcome α
  | .prepare => d.prepare
  | .align => d.align e.metrics e.options.scaledUnit
  | .space => d.space e.options
  | .breakSystems => d.breakSystems e.options e.metrics
  | .stackStaves => d.stackStaves e.options e.metrics
  | .breakPages => d.breakPages e.options
  | .fillLines => d.fillLines e.options
  | .fillPages => d.fillPages e.options
  | .place => d.place e.options e.metrics

/-- Passes one after another, up to the first fault. -/
def runAll (e : Engine α) (d : Document α) (passes : List LayoutPass) : Outcome α :=
  passes.foldl (fun o pass => o.andThen fun d => e.run d pass) (.done d [])

/-- A whole layout. -/
def layout (e : Engine α) (d : Document α) : Outcome α := e.runAll d LayoutPass.all

end Engine

end ScoreLayout
