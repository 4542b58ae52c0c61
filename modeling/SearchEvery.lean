import SearchEvery.ActionSystem
import SearchEvery.TableUpdate
import SearchEvery.EntryMap
import SearchEvery.MaximalRuns
import SearchEvery.RetriedCall
import SearchEvery.Delimited
import SearchEvery.FallibleLoop
import SearchEvery.RustText
import SearchEvery.DiskWalk
import SearchEvery.Scanner
import SearchEvery.TantivyIndex
import SearchEvery.DeleteFile
import SearchEvery.Pipeline
import SearchEvery.PipelineInvariant
import SearchEvery.PipelineDocs
import SearchEvery.PipelineLedger
import SearchEvery.PipelineCompletion
import SearchEvery.PipelineSystem
import SearchEvery.PipelineUpsert
import SearchEvery.PipelineProgress
import SearchEvery.Dedup
import SearchEvery.DupPage
import SearchEvery.DupHistory
import SearchEvery.DupRoots
import SearchEvery.SearchQuery
import SearchEvery.NameSearch
import SearchEvery.DailySkip
import SearchEvery.ScanAgreement
import SearchEvery.ConfigStore
import SearchEvery.DefaultExcludes
import SearchEvery.ConfigForm
import SearchEvery.ConfigRace
import SearchEvery.TauriEvents
import SearchEvery.ProgressView
import SearchEvery.AppSession
import SearchEvery.LatestSearch
import SearchEvery.SearchPage
import SearchEvery.BusyFlag
import SearchEvery.JsText
import SearchEvery.JsNumber
import SearchEvery.ShortenPath
import SearchEvery.DetectSpec
import SearchEvery.FileTimes
import SearchEvery.Utf8
import SearchEvery.ContentParse
import SearchEvery.BatchIndex
import SearchEvery.ScanListeners
import SearchEvery.ScanDisplay
import SearchEvery.SearchAnswers
import SearchEvery.JsonText
import SearchEvery.SerdeJson
import SearchEvery.JsonParse
import SearchEvery.JsonRoundTrip
import SearchEvery.JsonFields
import SearchEvery.ConfigJson
import SearchEvery.StateJson
import SearchEvery.ConfigBytes
import SearchEvery.ConfigPage
import SearchEvery.StateBytes
import SearchEvery.Diagnostics
import SearchEvery.JsRegExp
import SearchEvery.JsPattern
import SearchEvery.Highlight
import SearchEvery.HighlightRegex
import SearchEvery.TextBoxes
import SearchEvery.ScanArithmetic
import SearchEvery.IndexBuild
import SearchEvery.SafeInvoke
import SearchEvery.Backend
import SearchEvery.FormatBytes
import SearchEvery.ResultColumns
