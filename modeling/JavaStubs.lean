import JavaStubs.CommandLine.Report
import JavaStubs.CommandLine.Request
import JavaStubs.Compiler
import JavaStubs.Descriptor.Basic
import JavaStubs.Descriptor.Declaration
import JavaStubs.Descriptor.Error
import JavaStubs.Descriptor.Index
import JavaStubs.Descriptor.Reader
import JavaStubs.Descriptor.Validity
import JavaStubs.Files.FileSystem
import JavaStubs.Files.Path
import JavaStubs.Generator
import JavaStubs.Inquiry
import JavaStubs.Main
import JavaStubs.Markup.Attribute
import JavaStubs.Markup.Element
import JavaStubs.Markup.Event
import JavaStubs.Markup.Reference
import JavaStubs.Member
import JavaStubs.Model
import JavaStubs.Name
import JavaStubs.Obligation.Basic
import JavaStubs.Obligation.Collect
import JavaStubs.Obligation.Hierarchy
import JavaStubs.Obligation.Inherited
import JavaStubs.Resolver.Basic
import JavaStubs.Resolver.Error
import JavaStubs.Resolver.Source
import JavaStubs.StandardLibrary.Charset
import JavaStubs.StandardLibrary.Function
import JavaStubs.StandardLibrary.Index
import JavaStubs.StandardLibrary.Io
import JavaStubs.StandardLibrary.Lang
import JavaStubs.StandardLibrary.Security
import JavaStubs.StandardLibrary.Terms
import JavaStubs.StandardLibrary.Util
import JavaStubs.Stub.Body
import JavaStubs.Stub.Emission
import JavaStubs.Stub.Naming
import JavaStubs.Stub.Source
import JavaStubs.Subtyping
import JavaStubs.Text.CharClass
import JavaStubs.Text.Cut
import JavaStubs.Text.Ranges
import JavaStubs.Ty.Basic
import JavaStubs.Ty.Erasure
import JavaStubs.Ty.Expression
import JavaStubs.Ty.Substitution
import JavaStubs.Ty.Token
import JavaStubs.Proofs.Obligation.Groups
import JavaStubs.Proofs.Obligation.Order
import JavaStubs.Proofs.Types.Substitution
import JavaStubs.Proofs.Hierarchy.Walk
import JavaStubs.Proofs.Types.Capture
import JavaStubs.Proofs.Obligation.Closure
import JavaStubs.Proofs.Hierarchy.Climb
import JavaStubs.Proofs.Types.Naming
import JavaStubs.Proofs.Types.Scoping
import JavaStubs.Proofs.Descriptor.Scoping
import JavaStubs.Proofs.Resolver.Linked
import JavaStubs.Proofs.Hierarchy.Arguments
import JavaStubs.Proofs.Obligation.Exact
import JavaStubs.Proofs.Obligation.Variables
import JavaStubs.Proofs.Hierarchy.Revision
import JavaStubs.Proofs.Types.Renaming
import JavaStubs.Proofs.Subtyping.Renaming
import JavaStubs.Proofs.Obligation.Agreement
import JavaStubs.Proofs.Obligation.Renaming
import JavaStubs.Proofs.Resolver.Direct
import JavaStubs.Proofs.Resolver.Transparency
import JavaStubs.Proofs.Resolver.Outcome
import JavaStubs.Proofs.Obligation.Candidates
import JavaStubs.Proofs.Obligation.Contract
import JavaStubs.Proofs.Descriptor.WellFormed
import JavaStubs.Proofs.Resolver.Assembled
import JavaStubs.Proofs.Descriptor.Layout
import JavaStubs.Proofs.Stub.Emission
import JavaStubs.Proofs.Types.Grammar
import JavaStubs.Proofs.Types.Printing
import JavaStubs.Proofs.Hierarchy.Arrangement
import JavaStubs.Proofs.Subtyping.Arrangement
import JavaStubs.Proofs.Obligation.Mirror
import JavaStubs.Proofs.Obligation.Arrangement
import JavaStubs.Proofs.Types.Nameless
import JavaStubs.Proofs.Files.Following
import JavaStubs.Proofs.Files.Replacement
import JavaStubs.Proofs.Generation.Atomicity
import JavaStubs.Proofs.Generation.Capacity
import JavaStubs.Proofs.Files.Steadiness
import JavaStubs.Proofs.CommandLine.Reading
import JavaStubs.Proofs.CommandLine.Sequence
import JavaStubs.Proofs.Descriptor.Listing
import JavaStubs.Proofs.Resolver.Tree
import JavaStubs.Proofs.Subtyping.Ascent
import JavaStubs.Proofs.Types.Erasure
import JavaStubs.Proofs.Hierarchy.Traversal
import JavaStubs.Proofs.Types.Reading
import JavaStubs.Proofs.Obligation.Constructors
import JavaStubs.Proofs.Stub.Naming
import JavaStubs.Proofs.Types.Brackets
import JavaStubs.Proofs.Types.Bounds
import JavaStubs.Proofs.Stub.Heads
import JavaStubs.Proofs.Obligation.Shell
import JavaStubs.Proofs.Subtyping.Monotone
import JavaStubs.Proofs.Types.OverrideIdentity
import JavaStubs.Proofs.Obligation.Throws
import JavaStubs.Proofs.Files.Components
import JavaStubs.Proofs.Stub.ReadBack
