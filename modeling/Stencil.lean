import Stencil.Condition.Reader
import Stencil.Filter.Builtin
import Stencil.Text.Quoted
import Stencil.Tag.Balance
import Stencil.Tag.Syntax
import Stencil.Template.Ancestry
import Stencil.Template.Blocks
import Stencil.Template.Conditionals
import Stencil.Template.Loader
import Stencil.Template.Loops
import Stencil.Template.Plugins
import Stencil.Template.Protection
import Stencil.Template.Variables
import Stencil.Cache.Key
import Stencil.Cache.Store
import Stencil.Engine.Render
import Stencil.Settings.Data
import Stencil.Command.Run
import Stencil.Main
import Stencil.Proofs.Composition.Independence
import Stencil.Proofs.Composition.Lockstep
import Stencil.Proofs.Composition.Walk
import Stencil.Proofs.Document.Pieces
import Stencil.Proofs.Document.Stages
import Stencil.Proofs.Opacity.Marker
import Stencil.Proofs.Opacity.Render
import Stencil.Proofs.Document.Loops
import Stencil.Proofs.Document.Render
import Stencil.Proofs.Composition.Declarations
import Stencil.Proofs.Composition.Capacity
import Stencil.Proofs.Composition.Lineage
import Stencil.Proofs.Cache.Interleaving
import Stencil.Engine.Configuration
import Stencil.Proofs.Cache.Reconfiguration
import Stencil.Proofs.Clearing.Render
import Stencil.Proofs.Disclosure.Markup
import Stencil.Proofs.Disclosure.Discarded
import Stencil.Proofs.Protection.Assembly
import Stencil.Proofs.Condition.Grammar
import Stencil.Proofs.Tag.Untouched
import Stencil.Proofs.Composition.Failure
import Stencil.Proofs.Document.Inlined
import Stencil.Proofs.Pairing.Conditionals
import Stencil.Proofs.Pairing.Rerun
import Stencil.Proofs.Pairing.Loops
import Stencil.Proofs.Scoping.Render
import Stencil.Proofs.Condition.Comparison
import Stencil.Proofs.Condition.Written
import Stencil.Proofs.Outline.Expansion
import Stencil.Proofs.Separators.Render
import Stencil.Proofs.Disclosure.Entities
import Stencil.Proofs.Cache.Keys
import Stencil.Proofs.Cache.Files
import Stencil.Proofs.Condition.Integers
import Stencil.Proofs.Value.RoundTrip
import Stencil.Proofs.Filter.Chains
import Stencil.Proofs.Calendar.Months
import Stencil.Proofs.Filter.Dates
import Stencil.Proofs.Filter.Timestamps
import Stencil.Proofs.Filter.Instants
import Stencil.Proofs.Disk.Containment
import Stencil.Proofs.Settings.Loading
import Stencil.Proofs.Assignment.Shown
import Stencil.Proofs.Cache.Emptying
import Stencil.Proofs.Context.Overlays
import Stencil.Proofs.Settings.Check
import Stencil.Proofs.Tag.Closings
import Stencil.Proofs.Condition.Paths
import Stencil.Proofs.Slicing.Composition
