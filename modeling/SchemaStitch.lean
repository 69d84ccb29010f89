import SchemaStitch.Bundle.Pare
import SchemaStitch.Config
import SchemaStitch.Json.Reader
import SchemaStitch.Module
import SchemaStitch.Proofs.KeyTree.Branches
import SchemaStitch.Proofs.Bundle.Binding
import SchemaStitch.Proofs.Bundle.Cache
import SchemaStitch.Proofs.Bundle.Extraction
import SchemaStitch.Proofs.Bundle.Frame
import SchemaStitch.Proofs.Bundle.Layering
import SchemaStitch.Proofs.Bundle.Merging
import SchemaStitch.Proofs.Bundle.Normal
import SchemaStitch.Proofs.Bundle.Paring
import SchemaStitch.Proofs.Bundle.Placeholders
import SchemaStitch.Proofs.Bundle.Scalars
import SchemaStitch.Proofs.Bundle.Survival
import SchemaStitch.Proofs.Bundle.Trees
import SchemaStitch.Proofs.Merge.Again
import SchemaStitch.Proofs.Merge.Grouping
import SchemaStitch.Proofs.Merge.Operations
import SchemaStitch.Proofs.Merge.Roots
import SchemaStitch.Proofs.Pare.Remainder
import SchemaStitch.Proofs.Pare.Roots
import SchemaStitch.Proofs.Pare.Several
import SchemaStitch.Proofs.Pare.Subtraction
import SchemaStitch.Proofs.Resolver.Editing
import SchemaStitch.Proofs.Resolver.Folding
import SchemaStitch.Proofs.Resolver.Transparent
import SchemaStitch.Proofs.ResolverMap.Filtering
import SchemaStitch.Proofs.ResolverMap.Lenient
import SchemaStitch.Proofs.ResolverMap.Overlaying
import SchemaStitch.Proofs.ResolverMap.Removing
import SchemaStitch.Proofs.ResolverMap.Writing
