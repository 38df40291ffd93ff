import Mkrootfs.Library.Text
import Mkrootfs.Library.Scan
import Mkrootfs.Kconfig.ConfigPath
import Mkrootfs.Build.MakefileDeps
import Mkrootfs.Kconfig.Symbol
import Mkrootfs.Kconfig.ConfData
import Mkrootfs.Kconfig.ConfLines
import Mkrootfs.Kconfig.ConfRead
import Mkrootfs.Kconfig.ConfRoundTrip
import Mkrootfs.Kconfig.AutoConf
import Mkrootfs.Kconfig.AutoConfTouched
import Mkrootfs.Library.Rsync
import Mkrootfs.Build.Freshness
import Mkrootfs.Build.Faked
import Mkrootfs.Build.Ownership
import Mkrootfs.Library.LastWriter
import Mkrootfs.Build.Ledger
import Mkrootfs.Library.Schedule
import Mkrootfs.Build.MakeGraph
import Mkrootfs.Build.Images
import Mkrootfs.Library.Comm
import Mkrootfs.Library.Xargs
import Mkrootfs.Library.Script
import Mkrootfs.Library.FileTree
import Mkrootfs.Library.TreeRemoval
import Mkrootfs.Library.ScriptRun
import Mkrootfs.Build.BuildDir
import Mkrootfs.Build.Recipes
import Mkrootfs.Build.Accounted
import Mkrootfs.Build.WriteAhead
import Mkrootfs.Build.RecipeRuns
import Mkrootfs.Build.StagingRun
import Mkrootfs.Build.StagingStatus
import Mkrootfs.Build.StagingHistory
import Mkrootfs.Build.CleaningRules
import Mkrootfs.Build.RemovedPackages
import Mkrootfs.Build.BootIso
import Mkrootfs.Build.DisplayLock
import Mkrootfs.Build.PartialBuild
import Mkrootfs.Kconfig.AutoConfReaders
import Mkrootfs.Kconfig.BuildEdges
import Mkrootfs.Kconfig.BuildOrder
import Mkrootfs.Build.DroppedDirs
import Mkrootfs.Kconfig.AutoConfCommit
import Mkrootfs.Library.Bytes
import Mkrootfs.Tests.Sdinfo
import Mkrootfs.Tests.XenoTest
import Mkrootfs.Tools.Fixdep
import Mkrootfs.Tools.GrubModules
import Mkrootfs.Tools.Relln
import Mkrootfs.Library.PathExpansion
import Mkrootfs.Tools.Mksrcdir
import Mkrootfs.Library.NumberText
import Mkrootfs.Tools.FakerootFilter
import Mkrootfs.Library.Operands
import Mkrootfs.Library.Outline
import Mkrootfs.Library.Equations
import Mkrootfs.Kconfig.ExprValue
import Mkrootfs.Kconfig.ExprEq
import Mkrootfs.Kconfig.ExprTransform
import Mkrootfs.Kconfig.ExprJoin
import Mkrootfs.Kconfig.ExprDups
import Mkrootfs.Kconfig.ExprCompare
import Mkrootfs.Kconfig.ExprRewriting
import Mkrootfs.Kconfig.ParsedConditions
import Mkrootfs.Kconfig.MenuTree
import Mkrootfs.Kconfig.Calculator
import Mkrootfs.Kconfig.CalcEquations
import Mkrootfs.Kconfig.CalcSettled
import Mkrootfs.Kconfig.CalcRun
import Mkrootfs.Kconfig.CalcSolution
import Mkrootfs.Kconfig.Settings
import Mkrootfs.Kconfig.SetThenGet
import Mkrootfs.Kconfig.AdoptedValues
import Mkrootfs.Kconfig.TextSettings
import Mkrootfs.Kconfig.NewSymbols
import Mkrootfs.Kconfig.Sessions
import Mkrootfs.Build.LedgerRecipes
import Mkrootfs.Build.LedgerStaging
