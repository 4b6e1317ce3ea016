import Confinement.Text.Utf8
import Confinement.Text.Blank
import Confinement.Path
import Confinement.Errno
import Confinement.FileSystem.Tree
import Confinement.FileSystem.Resolve
import Confinement.FileSystem.Read
import Confinement.FileSystem.Write
import Confinement.Text.Quoted
import Confinement.Json.Reader
import Confinement.Json.Value
import Confinement.Configuration
import Confinement.ExtensionSet
import Confinement.Failure
import Confinement.Invocation
import Confinement.Lookup
import Confinement.Glob
import Confinement.LinkerConf
import Confinement.SearchList
import Confinement.Standpoint
import Confinement.Registry
import Confinement.Catalog
import Confinement.Credentials
import Confinement.Session
import Confinement.Dependencies
import Confinement.Preload
import Confinement.Staging
import Confinement.Jail
import Confinement.Child
import Confinement.SharedObject.Image
import Confinement.SharedObject.Headers
import Confinement.SharedObject.Strings
import Confinement.SharedObject.Dynamic
import Confinement.SharedObject.Needed
import Confinement.SharedObject.Memory
import Confinement.SharedObject.Instruction
import Confinement.SharedObject.Machine
import Confinement.SharedObject.LinkMap
import Confinement.SharedObject.Opening
import Confinement.SharedObject.Loader
import Confinement.Caller
import Confinement.CommandLine.Options
import Confinement.CommandLine.Run
import Confinement.Main
import Confinement.Proofs.Path.Nesting
import Confinement.Proofs.SearchList.Apart
import Confinement.Proofs.Extensions
import Confinement.Proofs.Session.Preload
import Confinement.Proofs.Caller.Chain
import Confinement.Proofs.Staging.Replica
import Confinement.Proofs.Staging.Duplicate
import Confinement.Proofs.Staging.Lookup
import Confinement.Proofs.Staging.Stageable
import Confinement.Proofs.Staging.Verbatim
import Confinement.Proofs.Staging.Places
import Confinement.Proofs.Identity
import Confinement.Proofs.Session.Trace
import Confinement.Proofs.Dependencies.Chain
import Confinement.Proofs.Dependencies.Closure
import Confinement.Proofs.Jail.Target
import Confinement.Proofs.Jail.Confined
import Confinement.Proofs.Jail.StagingRoot
import Confinement.Proofs.Caller.Survey
import Confinement.Proofs.Caller.Launch
import Confinement.Proofs.CommandLine.Course
import Confinement.Proofs.Staging.Inside
import Confinement.Proofs.Session.Answers
import Confinement.Proofs.Dependencies.Pursuit
import Confinement.Proofs.Dependencies.Depth
import Confinement.Proofs.Dependencies.Exact
import Confinement.Proofs.Text.Words
import Confinement.Proofs.Registry.Mappings
import Confinement.Proofs.FileSystem.Retention
import Confinement.Proofs.Staging.Once
import Confinement.Proofs.Staging.Tour
import Confinement.Proofs.Staging.Itinerary
import Confinement.Proofs.Staging.Regress
import Confinement.Proofs.Dependencies.Order
import Confinement.Proofs.Registry.Offers
import Confinement.Proofs.Caller.Clash
import Confinement.Proofs.Text.Utf8
import Confinement.Proofs.Lookup.ModuleFile
import Confinement.Proofs.Catalog.Marker
import Confinement.Proofs.Catalog.Walk
import Confinement.Proofs.Catalog.Exact
import Confinement.Proofs.Lookup.Naming
import Confinement.Proofs.Lookup.Shadow
import Confinement.Proofs.SearchList.Cover
import Confinement.Proofs.Session.Policies
import Confinement.Proofs.Jail.Sequence
import Confinement.Proofs.LinkerConf.Lines
import Confinement.Proofs.LinkerConf.Expansion
import Confinement.Proofs.Lookup.Command
import Confinement.Proofs.Extensions.Union
import Confinement.Proofs.Catalog.Printed
