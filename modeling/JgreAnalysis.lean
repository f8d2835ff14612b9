import JgreAnalysis.AliasChasing
import JgreAnalysis.BinderHierarchy
import JgreAnalysis.BodyRuns
import JgreAnalysis.CompileCommands
import JgreAnalysis.DefinitionChains
import JgreAnalysis.DetectionReports
import JgreAnalysis.ExitPointVerdict
import JgreAnalysis.HelperMatches
import JgreAnalysis.HelperRegistrations
import JgreAnalysis.ImplicitCalls
import JgreAnalysis.InsertionReports
import JgreAnalysis.InterfaceClosure
import JgreAnalysis.JniFramework
import JgreAnalysis.LocalFacts
import JgreAnalysis.MachineIndependence
import JgreAnalysis.MethodDispatch
import JgreAnalysis.NativeContent
import JgreAnalysis.NativeEntryPoints
import JgreAnalysis.NativeMain
import JgreAnalysis.NativeNames
import JgreAnalysis.NativeReport
import JgreAnalysis.NativeSourceText
import JgreAnalysis.RegistryEntries
import JgreAnalysis.RunAnalysis
import JgreAnalysis.ScannedFiles
import JgreAnalysis.ServiceRegistrations
import JgreAnalysis.ServiceRuns
import JgreAnalysis.StatementOrder
import JgreAnalysis.SummaryText
