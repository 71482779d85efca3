import StimOverlay.Block
import StimOverlay.Build.Anchor
import StimOverlay.Build.Completion
import StimOverlay.Build.Directive
import StimOverlay.Build.Gates
import StimOverlay.Build.Line
import StimOverlay.Build.Record
import StimOverlay.Build.Run
import StimOverlay.Build.State
import StimOverlay.Circuit.Basic
import StimOverlay.Circuit.Detectors
import StimOverlay.Circuit.Geometry
import StimOverlay.Circuit.Rectification
import StimOverlay.CircuitError
import StimOverlay.Command.Argument
import StimOverlay.Command.Host
import StimOverlay.Command.Invocation
import StimOverlay.Command.Memory
import StimOverlay.Command.Run
import StimOverlay.Config.Basic
import StimOverlay.Config.Environment
import StimOverlay.Config.File
import StimOverlay.Diagnostic
import StimOverlay.Directive.Basic
import StimOverlay.Directive.IdList
import StimOverlay.Directive.Keys
import StimOverlay.Document.Basic
import StimOverlay.Document.Json
import StimOverlay.Document.Yaml
import StimOverlay.Emission.Label
import StimOverlay.Emission.Line
import StimOverlay.Emission.Numbering
import StimOverlay.Emission.Text
import StimOverlay.Gate.Basic
import StimOverlay.Gate.Catalog
import StimOverlay.Gate.Standard
import StimOverlay.Instruction.Basic
import StimOverlay.Instruction.Lexeme
import StimOverlay.Instruction.Tag
import StimOverlay.Instruction.Target
import StimOverlay.Layer
import StimOverlay.Main
import StimOverlay.Numeric.Arithmetic
import StimOverlay.Numeric.Binary
import StimOverlay.Numeric.Numeral
import StimOverlay.Numeric.Rounding
import StimOverlay.Numeric.Shortest
import StimOverlay.Numeric.Total
import StimOverlay.Operation
import StimOverlay.Overlay
import StimOverlay.Parse
import StimOverlay.Proofs.Block.BraceMatching
import StimOverlay.Proofs.Block.TreeSpans
import StimOverlay.Proofs.Block.UnrolledRepeats
import StimOverlay.Proofs.Checked.BuildingLookups
import StimOverlay.Proofs.Checked.CollectingLookups
import StimOverlay.Proofs.Checked.CursorLookups
import StimOverlay.Proofs.Checked.WritingLookups
import StimOverlay.Proofs.Circuit.CompletedCoordinates
import StimOverlay.Proofs.Circuit.ExactRectification
import StimOverlay.Proofs.Circuit.FreePlaces
import StimOverlay.Proofs.Circuit.IntegerBoards
import StimOverlay.Proofs.Circuit.PackedCoordinates
import StimOverlay.Proofs.Circuit.QubitArena
import StimOverlay.Proofs.Circuit.QubitPositions
import StimOverlay.Proofs.Circuit.RepeatedRectification
import StimOverlay.Proofs.Circuit.SheetEntries
import StimOverlay.Proofs.Circuit.TransformedLayouts
import StimOverlay.Proofs.Directive.AssignedValues
import StimOverlay.Proofs.Directive.ItemScan
import StimOverlay.Proofs.Directive.MadeUpHeaders
import StimOverlay.Proofs.Directive.QuotedValues
import StimOverlay.Proofs.Directive.WrittenAssignments
import StimOverlay.Proofs.Directive.WrittenDirectives
import StimOverlay.Proofs.Emission.DeclaredQubits
import StimOverlay.Proofs.Emission.DetectorLabels
import StimOverlay.Proofs.Emission.DistinctHeadings
import StimOverlay.Proofs.Emission.FiniteTexts
import StimOverlay.Proofs.Emission.LabelTimes
import StimOverlay.Proofs.Emission.LineBuilding
import StimOverlay.Proofs.Emission.LineReadings
import StimOverlay.Proofs.Emission.QubitNumbers
import StimOverlay.Proofs.Emission.RegroupedActions
import StimOverlay.Proofs.Emission.SharedLinks
import StimOverlay.Proofs.Emission.SoundLines
import StimOverlay.Proofs.Emission.WritableSheets
import StimOverlay.Proofs.Emission.WrittenLayers
import StimOverlay.Proofs.Emission.WrittenOffsets
import StimOverlay.Proofs.Emission.WrittenText
import StimOverlay.Proofs.Instruction.AllowedCharacters
import StimOverlay.Proofs.Instruction.DisplayRoundTrip
import StimOverlay.Proofs.Instruction.GateNames
import StimOverlay.Proofs.Instruction.TargetProducts
import StimOverlay.Proofs.Instruction.TargetSpellings
import StimOverlay.Proofs.Instruction.TokenSpans
import StimOverlay.Proofs.Instruction.WrittenTargets
import StimOverlay.Proofs.Layer.ClaimedQubits
import StimOverlay.Proofs.Layer.LayerOrigins
import StimOverlay.Proofs.Layer.LayeredRuns
import StimOverlay.Proofs.Layer.SoundLayers
import StimOverlay.Proofs.Numeric.BoundedSums
import StimOverlay.Proofs.Numeric.ExactArithmetic
import StimOverlay.Proofs.Numeric.NarrowedNumerals
import StimOverlay.Proofs.Numeric.NearestRounding
import StimOverlay.Proofs.Numeric.ShortestNumerals
import StimOverlay.Proofs.Parsed.InsertedHeaders
import StimOverlay.Proofs.Parsed.LineLocations
import StimOverlay.Proofs.Parsed.ReparsedText
import StimOverlay.Proofs.Record.BackwardReferences
import StimOverlay.Proofs.Record.CollectedDetectors
import StimOverlay.Proofs.Record.GroupedLists
import StimOverlay.Proofs.Record.MarkReferences
import StimOverlay.Proofs.Record.MeasurementNumbers
import StimOverlay.Proofs.Record.ObservableSlots
import StimOverlay.Proofs.Record.OutputRecord
import StimOverlay.Proofs.Record.ReorderedRecord
import StimOverlay.Proofs.Record.RunRecord
import StimOverlay.Proofs.RoundTrip.CleanParse
import StimOverlay.Proofs.RoundTrip.LineRuns
import StimOverlay.Proofs.RoundTrip.ReplayedMoves
import StimOverlay.Proofs.RoundTrip.RestoredCircuit
import StimOverlay.Proofs.RoundTrip.RestoredDetectors
import StimOverlay.Proofs.RoundTrip.RestoredDrawings
import StimOverlay.Proofs.RoundTrip.RestoredLayers
import StimOverlay.Proofs.RoundTrip.TextRuns
import StimOverlay.Proofs.Run.ActEdits
import StimOverlay.Proofs.Run.ActSequence
import StimOverlay.Proofs.Run.ActSources
import StimOverlay.Proofs.Run.AwaitingDirectives
import StimOverlay.Proofs.Run.DeclaredPlaces
import StimOverlay.Proofs.Run.ErrorsLast
import StimOverlay.Proofs.Run.FirstVisits
import StimOverlay.Proofs.Run.HaltedContinuation
import StimOverlay.Proofs.Run.InstructionAdditions
import StimOverlay.Proofs.Run.LenientRuns
import StimOverlay.Proofs.Run.PlacedOperations
import StimOverlay.Proofs.Run.RelocatedLines
import StimOverlay.Proofs.Run.StepChanges
import StimOverlay.Proofs.Run.TapeMoves
import StimOverlay.Proofs.Run.TargetBroadcast
import StimOverlay.Proofs.Run.TidyStates
import StimOverlay.Proofs.Source.AbbreviatedLines
import StimOverlay.Proofs.Source.CompactText
import StimOverlay.Proofs.Source.EscapedTags
import StimOverlay.Proofs.Source.NormalForm
import StimOverlay.Proofs.Source.NormalLines
import StimOverlay.Proofs.Source.OctetCoding
import StimOverlay.Proofs.Source.PragmaMarkers
import StimOverlay.Proofs.Source.SpelledOutLines
import StimOverlay.Proofs.Source.SpellingTwice
import StimOverlay.Qubit
import StimOverlay.Report.Contents
import StimOverlay.Report.Summary
import StimOverlay.Report.Text
import StimOverlay.Schedule
import StimOverlay.ShareLink
import StimOverlay.Source.Normal
import StimOverlay.Source.Pragma
import StimOverlay.Text.Blank
import StimOverlay.Text.Case
import StimOverlay.Text.Percent
import StimOverlay.Text.Pieces
import StimOverlay.Text.Replace
import StimOverlay.Text.Utf8
import StimOverlay.Yaml.Block
import StimOverlay.Yaml.Character
import StimOverlay.Yaml.Node
import StimOverlay.Yaml.Plain
import StimOverlay.Yaml.Quoted
import StimOverlay.Yaml.Read
import StimOverlay.Yaml.Space
import StimOverlay.Yaml.Token
