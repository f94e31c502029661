import Stencil.Binary64
import Stencil.Bindings
import Stencil.Block
import Stencil.Decimal.Layout
import Stencil.Decimal.Shortest
import Stencil.Document.Basic
import Stencil.Document.Change
import Stencil.Document.Markup
import Stencil.Document.Tree
import Stencil.Edit
import Stencil.Event
import Stencil.Fragment
import Stencil.Inspect
import Stencil.Instance.Basic
import Stencil.Instance.Error
import Stencil.Instance.Mount
import Stencil.Instance.Patch
import Stencil.Path
import Stencil.Proofs.Bindings
import Stencil.Proofs.Cursor
import Stencil.Proofs.Document.Evolution
import Stencil.Proofs.Document.Forest
import Stencil.Proofs.Document.Linkage
import Stencil.Proofs.Document.Moving
import Stencil.Proofs.Document.Redrawing
import Stencil.Proofs.Document.Shown
import Stencil.Proofs.Document.Views
import Stencil.Proofs.Fragment.Building
import Stencil.Proofs.Instance.Adoption
import Stencil.Proofs.Instance.Anchoring
import Stencil.Proofs.Instance.Carrying
import Stencil.Proofs.Instance.Completeness
import Stencil.Proofs.Instance.Confinement
import Stencil.Proofs.Instance.Depth
import Stencil.Proofs.Instance.Dues
import Stencil.Proofs.Instance.Families
import Stencil.Proofs.Instance.Faults
import Stencil.Proofs.Instance.Filling
import Stencil.Proofs.Instance.Grafting
import Stencil.Proofs.Instance.Layout
import Stencil.Proofs.Instance.Likeness
import Stencil.Proofs.Instance.Merging
import Stencil.Proofs.Instance.Mounting
import Stencil.Proofs.Instance.Patching
import Stencil.Proofs.Instance.Placing
import Stencil.Proofs.Instance.Planning
import Stencil.Proofs.Instance.Readiness
import Stencil.Proofs.Instance.Refusal
import Stencil.Proofs.Instance.Renewal
import Stencil.Proofs.Instance.Replanning
import Stencil.Proofs.Instance.Revision
import Stencil.Proofs.Instance.Run
import Stencil.Proofs.Instance.Sites
import Stencil.Proofs.Instance.Skipping
import Stencil.Proofs.Instance.Stability
import Stencil.Proofs.Instance.Tracing
import Stencil.Proofs.Path
import Stencil.Proofs.Rendering
import Stencil.Proofs.Skeleton.Copy
import Stencil.Proofs.Template.Crossing
import Stencil.Proofs.Template.Rebuilding
import Stencil.Proofs.Template.Splitting
import Stencil.Proofs.Template.Verdict
import Stencil.Proofs.World
import Stencil.Proofs.World.Baseline
import Stencil.Proofs.World.Forests
import Stencil.Scalar
import Stencil.Skeleton
import Stencil.Stage
import Stencil.Template.Cell
import Stencil.Template.Compile
import Stencil.Template.Error
import Stencil.Template.Options
import Stencil.Template.Split
import Stencil.Text.CodeRanges
import Stencil.Text.Extending
import Stencil.Text.Quoted
import Stencil.Text.Unprintable
import Stencil.Workbench.Basic
import Stencil.Workbench.Recipe
import Stencil.Workbench.Table
import Stencil.Proofs.Document.Twins
import Stencil.Proofs.Instance.Separation
import Stencil.Proofs.Document.Insertion
import Stencil.Proofs.Markup.Escaping
import Stencil.Proofs.Markup.NormalForm
import Stencil.Proofs.Skeleton.Cloning
import Stencil.Proofs.Markup.Faithful
import Stencil.Proofs.Instance.Attempts
