import Postmortem.Fault
import Postmortem.Word
import Postmortem.Memory.Segment
import Postmortem.Memory.Basic
import Postmortem.TypeTable.Basic
import Postmortem.TypeTable.Query
import Postmortem.TypeName
import Postmortem.Classification
import Postmortem.Image.Basic
import Postmortem.Image.Read
import Postmortem.Image.Wrapper
import Postmortem.Image.Render
import Postmortem.Event
import Postmortem.Inspection
import Postmortem.Group.Control
import Postmortem.Group.Shape
import Postmortem.Group.Table
import Postmortem.Group.Walk
import Postmortem.Bucket.Walk
import Postmortem.Container.Basic
import Postmortem.Container.Children
import Postmortem.Container.Render
import Postmortem.IteratorHandle
import Postmortem.Registry
import Postmortem.Presentation
import Postmortem.Proofs.Bucket.Chains
import Postmortem.Proofs.Image.StoredIntegers
import Postmortem.Proofs.Memory.Components
import Postmortem.Proofs.Memory.Update
import Postmortem.Proofs.Group.Encoding
import Postmortem.Proofs.Group.Search
import Postmortem.Proofs.Group.Recovery
import Postmortem.Proofs.Group.Writes
import Postmortem.Proofs.Group.MissingWords
import Postmortem.Proofs.Group.PackedBytes
import Postmortem.Proofs.Group.Survey
import Postmortem.Proofs.Group.FewerSlots
import Postmortem.Proofs.Bucket.BrokenChains
import Postmortem.Proofs.Container.Limit
import Postmortem.Proofs.Iterator.Dereference
import Postmortem.Proofs.Growth.Images
import Postmortem.Proofs.Growth.Readings
import Postmortem.Proofs.Growth.Traversals
import Postmortem.Proofs.Group.Standing
import Postmortem.Proofs.Container.Pairs
import Postmortem.Proofs.Image.Mapped
import Postmortem.Proofs.Bucket.Termination
import Postmortem.Proofs.Group.Termination
import Postmortem.Proofs.TypeTable.Flattening
import Postmortem.Proofs.TypeTable.Lookups
import Postmortem.Proofs.Image.Scalars
import Postmortem.Proofs.Iterator.EndText
import Postmortem.Proofs.Container.Bounds
import Postmortem.Proofs.Container.Text
import Postmortem.Proofs.Registry.Roles
import Postmortem.Proofs.Image.Rendering
import Postmortem.Proofs.Group.Skipping
import Postmortem.Proofs.Container.Log
