import EffectLayers.Build
import EffectLayers.Catalog
import EffectLayers.Definition
import EffectLayers.Derivation
import EffectLayers.Dispatch
import EffectLayers.Effects
import EffectLayers.Expr.Basic
import EffectLayers.Expr.Eval
import EffectLayers.Fault
import EffectLayers.Layer.Carrier
import EffectLayers.Layer.Coercion
import EffectLayers.Layer.Context
import EffectLayers.Layer.Escape
import EffectLayers.Operation
import EffectLayers.Options
import EffectLayers.Program.Basic
import EffectLayers.Program.Callback
import EffectLayers.Program.Generator
import EffectLayers.Program.Invocation
import EffectLayers.Program.Run
import EffectLayers.Program.Sequence
import EffectLayers.Program.World
import EffectLayers.Session.Basic
import EffectLayers.Session.Step
import EffectLayers.Text.CharClass
import EffectLayers.Text.Columns
import EffectLayers.Text.Emoji
import EffectLayers.Text.Layout
import EffectLayers.Text.Ligature
import EffectLayers.Text.Printable
import EffectLayers.Text.Quoted
import EffectLayers.Text.Width
import EffectLayers.Toml.Document
import EffectLayers.Toml.Item
import EffectLayers.Toml.Text
import EffectLayers.Value.Basic
import EffectLayers.Value.Display
import EffectLayers.Proofs.Control.Basic
import EffectLayers.Proofs.Control.Behaviour
import EffectLayers.Proofs.Program.Equations
import EffectLayers.Proofs.Control.Behaves
import EffectLayers.Proofs.Control.Faithful
import EffectLayers.Proofs.Control.Escaping
import EffectLayers.Proofs.Control.Simulation
import EffectLayers.Proofs.Control.Grid
import EffectLayers.Proofs.Assembly
import EffectLayers.Proofs.Layer.Override
import EffectLayers.Proofs.Program.Similar
import EffectLayers.Proofs.Program.Alike
import EffectLayers.Proofs.Layer.Respect
import EffectLayers.Proofs.Layer.CoercedYields
import EffectLayers.Proofs.Program.Growth
import EffectLayers.Proofs.Program.Paired
import EffectLayers.Proofs.Layer.Laws
import EffectLayers.Proofs.Layer.Delivery
import EffectLayers.Proofs.Layer.Steady
import EffectLayers.Proofs.Session.Made
import EffectLayers.Proofs.Session.Ambient
import EffectLayers.Proofs.Layer.Stack
import EffectLayers.Proofs.Layer.Cleanup
import EffectLayers.Proofs.Layer.Loops
import EffectLayers.Proofs.Layer.LoopsAgree
import EffectLayers.Proofs.Layer.LoopContext
import EffectLayers.Proofs.Layer.Monad
import EffectLayers.Proofs.Layer.Exceptions
import EffectLayers.Proofs.Layer.Runs
import EffectLayers.Proofs.Layer.Extension
import EffectLayers.Proofs.Layer.Completion
import EffectLayers.Proofs.Layer.DerivedMonad
import EffectLayers.Proofs.Layer.Callbacks
import EffectLayers.Proofs.Layer.Kind
import EffectLayers.Proofs.Layer.Attached
import EffectLayers.Proofs.Layer.Chains
import EffectLayers.Proofs.Program.Implemented
import EffectLayers.Proofs.Layer.Implemented
import EffectLayers.Proofs.Session.Escapes
import EffectLayers.Proofs.Layer.Boundary
import EffectLayers.Proofs.Layer.Brands
import EffectLayers.Proofs.Layer.Parametric
import EffectLayers.Proofs.Layer.ParametricLayers
import EffectLayers.Proofs.Session.Parametric
import EffectLayers.Proofs.Program.Held
import EffectLayers.Proofs.Program.Stops
import EffectLayers.Proofs.Session.Homes
import EffectLayers.Proofs.Session.Dispatch
import EffectLayers.Proofs.Session.Lookup
import EffectLayers.Proofs.Session.Resolves
import EffectLayers.Proofs.Layer.Client
import EffectLayers.Proofs.Layer.Representation
import EffectLayers.Proofs.Layer.RawResults
import EffectLayers.Proofs.Layer.SequenceLaws
import EffectLayers.Proofs.Layer.Products
import EffectLayers.Proofs.Layer.ThreadedProducts
import EffectLayers.Proofs.Layer.Alternatives
import EffectLayers.Proofs.Program.InUse
import EffectLayers.Proofs.Layer.Branches
import EffectLayers.Proofs.Program.Cursors
import EffectLayers.Proofs.Layer.Projection
import EffectLayers.Proofs.Layer.Reified
import EffectLayers.Proofs.Layer.InSequence
import EffectLayers.Proofs.Toml.Texts
import EffectLayers.Proofs.Toml.Documents
import EffectLayers.Proofs.Text.Quoted
import EffectLayers.Proofs.Text.Layouts
import EffectLayers.Proofs.Value.Displayed
import EffectLayers.Proofs.Session.Attempts
