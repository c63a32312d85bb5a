import ScoreLayout.Binary64
import ScoreLayout.Decimal.Fixed
import ScoreLayout.Decimal.Shortest
import ScoreLayout.Diagnostics
import ScoreLayout.DisplayList
import ScoreLayout.DisplayList.Json
import ScoreLayout.Forest
import ScoreLayout.Forest.Walk
import ScoreLayout.Fraction
import ScoreLayout.Geometry.Box
import ScoreLayout.Geometry.Json
import ScoreLayout.Geometry.Rect
import ScoreLayout.Grid.Gap
import ScoreLayout.Grid.Key
import ScoreLayout.Grid.Measure
import ScoreLayout.Json.Basic
import ScoreLayout.Json.Reader
import ScoreLayout.Json.Whole
import ScoreLayout.Json.Writer
import ScoreLayout.Layout.Alignment
import ScoreLayout.Layout.Engine
import ScoreLayout.Layout.Filling
import ScoreLayout.Layout.Outcome
import ScoreLayout.Layout.PageBreaks
import ScoreLayout.Layout.Placement
import ScoreLayout.Layout.Positioning
import ScoreLayout.Layout.Preparation
import ScoreLayout.Layout.Stacking
import ScoreLayout.Layout.SystemBreaks
import ScoreLayout.Metrics
import ScoreLayout.Metrics.Table
import ScoreLayout.Music.Control
import ScoreLayout.Music.Definition
import ScoreLayout.Music.Duration
import ScoreLayout.Music.Element
import ScoreLayout.Music.Json
import ScoreLayout.Music.Pitch
import ScoreLayout.Options
import ScoreLayout.Proofs.BoxOffsets
import ScoreLayout.Proofs.Breakdowns
import ScoreLayout.Proofs.Containers
import ScoreLayout.Proofs.Content
import ScoreLayout.Proofs.ControlBands
import ScoreLayout.Proofs.ControlColumns
import ScoreLayout.Proofs.DetachedTrees
import ScoreLayout.Proofs.DisplayLists
import ScoreLayout.Proofs.DocumentOrder
import ScoreLayout.Proofs.DrawnControls
import ScoreLayout.Proofs.EditMarks
import ScoreLayout.Proofs.EditedStages
import ScoreLayout.Proofs.ElementSlots
import ScoreLayout.Proofs.Exact
import ScoreLayout.Proofs.ExactDurations
import ScoreLayout.Proofs.Forest.Links
import ScoreLayout.Proofs.Forest.Surgery
import ScoreLayout.Proofs.Forest.TwoWalks
import ScoreLayout.Proofs.Forest.Walk
import ScoreLayout.Proofs.Fraction
import ScoreLayout.Proofs.GreedyBreaks
import ScoreLayout.Proofs.GreedyPages
import ScoreLayout.Proofs.Grid.Clearing
import ScoreLayout.Proofs.Grid.Collecting
import ScoreLayout.Proofs.Grid.Distributing
import ScoreLayout.Proofs.Grid.Order
import ScoreLayout.Proofs.Grid.Placing
import ScoreLayout.Proofs.Grid.Requests
import ScoreLayout.Proofs.Grid.Stretching
import ScoreLayout.Proofs.Grid.Widths
import ScoreLayout.Proofs.GridOrder
import ScoreLayout.Proofs.HiddenStaves
import ScoreLayout.Proofs.InRange
import ScoreLayout.Proofs.JsonRoundTrip
import ScoreLayout.Proofs.Layout.AlignmentFaults
import ScoreLayout.Proofs.Layout.AlignmentSteps
import ScoreLayout.Proofs.Layout.BlankNodes
import ScoreLayout.Proofs.Layout.Content
import ScoreLayout.Proofs.Layout.ControlRoom
import ScoreLayout.Proofs.Layout.ControlStaves
import ScoreLayout.Proofs.Layout.DrawnSymbols
import ScoreLayout.Proofs.Layout.FaultlessPasses
import ScoreLayout.Proofs.Layout.FilledScores
import ScoreLayout.Proofs.Layout.FittingPlans
import ScoreLayout.Proofs.Layout.ForcedBreaks
import ScoreLayout.Proofs.Layout.Frame
import ScoreLayout.Proofs.Layout.Frames
import ScoreLayout.Proofs.Layout.GraceLedger
import ScoreLayout.Proofs.Layout.GreedyPlans
import ScoreLayout.Proofs.Layout.GreedySystems
import ScoreLayout.Proofs.Layout.JoinedSystems
import ScoreLayout.Proofs.Layout.KeptSlots
import ScoreLayout.Proofs.Layout.LayerSlots
import ScoreLayout.Proofs.Layout.LayerTimes
import ScoreLayout.Proofs.Layout.MeasureSlots
import ScoreLayout.Proofs.Layout.MeasureTimes
import ScoreLayout.Proofs.Layout.PageEmission
import ScoreLayout.Proofs.Layout.PageStarts
import ScoreLayout.Proofs.Layout.PageTops
import ScoreLayout.Proofs.Layout.Passes
import ScoreLayout.Proofs.Layout.PlacedControls
import ScoreLayout.Proofs.Layout.Positions
import ScoreLayout.Proofs.Layout.Rebuild
import ScoreLayout.Proofs.Layout.RemovedControls
import ScoreLayout.Proofs.Layout.Renewal
import ScoreLayout.Proofs.Layout.Rows
import ScoreLayout.Proofs.Layout.SettledSlots
import ScoreLayout.Proofs.Layout.Settling
import ScoreLayout.Proofs.Layout.Shape
import ScoreLayout.Proofs.Layout.SlotOrder
import ScoreLayout.Proofs.Layout.SoundGrids
import ScoreLayout.Proofs.Layout.Spacing
import ScoreLayout.Proofs.Layout.SparePlans
import ScoreLayout.Proofs.Layout.SpreadPages
import ScoreLayout.Proofs.Layout.StackedPages
import ScoreLayout.Proofs.Layout.StaffBands
import ScoreLayout.Proofs.Layout.SymbolSlots
import ScoreLayout.Proofs.Layout.Symbols
import ScoreLayout.Proofs.Layout.SystemEmission
import ScoreLayout.Proofs.Layout.SystemPlans
import ScoreLayout.Proofs.Layout.SystemStaves
import ScoreLayout.Proofs.Layout.TwinAlignment
import ScoreLayout.Proofs.Layout.TwinFilling
import ScoreLayout.Proofs.Layout.TwinGrids
import ScoreLayout.Proofs.Layout.TwinLayouts
import ScoreLayout.Proofs.Layout.Twins
import ScoreLayout.Proofs.Layout.Unbreaking
import ScoreLayout.Proofs.Layout.UnresolvedControls
import ScoreLayout.Proofs.Layout.VisibleStaves
import ScoreLayout.Proofs.Layout.WaitingControls
import ScoreLayout.Proofs.LineWidths
import ScoreLayout.Proofs.LowestTerms
import ScoreLayout.Proofs.OmittedControls
import ScoreLayout.Proofs.Onsets
import ScoreLayout.Proofs.OverWide
import ScoreLayout.Proofs.PageBreaks
import ScoreLayout.Proofs.PageHeights
import ScoreLayout.Proofs.PositionOrder
import ScoreLayout.Proofs.Reachable
import ScoreLayout.Proofs.RefusedEdits
import ScoreLayout.Proofs.RefusedSymbols
import ScoreLayout.Proofs.Relayout
import ScoreLayout.Proofs.RunningSignatures
import ScoreLayout.Proofs.Safety
import ScoreLayout.Proofs.Scalar
import ScoreLayout.Proofs.Score.Edits
import ScoreLayout.Proofs.Score.Identifiers
import ScoreLayout.Proofs.Score.WellFormed
import ScoreLayout.Proofs.ScoreTimes
import ScoreLayout.Proofs.Separation
import ScoreLayout.Proofs.StaffDefinitions
import ScoreLayout.Proofs.StaffLocations
import ScoreLayout.Proofs.StampedControls
import ScoreLayout.Proofs.Tiling
import ScoreLayout.Proofs.TimeGrids
import ScoreLayout.Proofs.UnbrokenContent
import ScoreLayout.Proofs.VoiceOrder
import ScoreLayout.Proofs.Widows
import ScoreLayout.Query
import ScoreLayout.Scalar
import ScoreLayout.Score.Build
import ScoreLayout.Score.Document
import ScoreLayout.Score.Edit
import ScoreLayout.Score.Node
import ScoreLayout.StaffStack
import ScoreLayout.Stage
import ScoreLayout.Proofs.Layout.RepeatedFilling
import ScoreLayout.Proofs.Layout.RepeatedPlacement
import ScoreLayout.Proofs.Reruns
