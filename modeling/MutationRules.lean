import MutationRules.Ordered.Set
import MutationRules.Ordered.Map
import MutationRules.Text.Blank
import MutationRules.Operator.Basic
import MutationRules.Operator.Families
import MutationRules.Operand.Basic
import MutationRules.ClassPath
import MutationRules.Expression
import MutationRules.Taxonomy.Basic
import MutationRules.Taxonomy.Standard
import MutationRules.Operand.Preference
import MutationRules.RuleName.Decode
import MutationRules.RuleSet.Synthesis
import MutationRules.Configuration.File
import MutationRules.Classification.Selective
import MutationRules.Number.Binary64
import MutationRules.Json.Reader
import MutationRules.Json.Writer
import MutationRules.Report.Generation
import MutationRules.Report.Classification
import MutationRules.Report.Operators
import MutationRules.Workspace.Basic
import MutationRules.Descriptor.File
import MutationRules.Settings.File
import MutationRules.Main
import MutationRules.Proofs.RuleSet.Enumeration
import MutationRules.Proofs.RuleSet.Reading
import MutationRules.Proofs.RuleName.Grammar
import MutationRules.Proofs.Configuration.Standard
import MutationRules.Proofs.RuleSet.Filing
import MutationRules.Proofs.RuleSet.Orientation
import MutationRules.Proofs.Configuration.Contents
import MutationRules.Proofs.RuleSet.Influence
import MutationRules.Proofs.Configuration.Determination
import MutationRules.Proofs.RuleSet.Legality
import MutationRules.Proofs.RuleSet.Literals
import MutationRules.Proofs.Classification.Exchange
import MutationRules.Proofs.Taxonomy.Verdict
import MutationRules.Proofs.Descriptor.Classification
import MutationRules.Proofs.Descriptor.Histogram
import MutationRules.Proofs.Workspace.Files
import MutationRules.Proofs.CommandLine.Generation
import MutationRules.Proofs.RuleName.RoundTrip
import MutationRules.Proofs.Settings.Acceptance
import MutationRules.Proofs.RuleSet.Fault
import MutationRules.Proofs.RuleSet.Representation
import MutationRules.Proofs.RuleSet.Collision
import MutationRules.Proofs.Taxonomy.Reordering
import MutationRules.Proofs.RuleSet.Extension
import MutationRules.Proofs.Classification.Spelling
import MutationRules.Proofs.Operand.Preference
import MutationRules.Proofs.Operand.Members
import MutationRules.Proofs.ClassPath.Ancestors
import MutationRules.Proofs.Classification.Ancestors
import MutationRules.Proofs.Classification.Selection
import MutationRules.Proofs.ClassPath.Derivation
import MutationRules.Proofs.ClassPath.Truncation
import MutationRules.Proofs.Report.Generation
import MutationRules.Proofs.Json.Normal
import MutationRules.Proofs.Descriptor.RoundTrip
import MutationRules.Proofs.Number.Binary64
import MutationRules.Proofs.Report.Duration
