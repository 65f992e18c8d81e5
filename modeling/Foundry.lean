import Foundry.Main
import Foundry.Proofs.Artifact.ConstructorLines
import Foundry.Proofs.Artifact.Header
import Foundry.Proofs.Descriptor.Blame
import Foundry.Proofs.Descriptor.Cycle
import Foundry.Proofs.Descriptor.Flattening
import Foundry.Proofs.Module.BareParameters
import Foundry.Proofs.Module.MissingAttributes
import Foundry.Proofs.Module.Names
import Foundry.Proofs.Module.Overrides
import Foundry.Proofs.Parameter.Integer
import Foundry.Proofs.Parameter.LeadingNumber
import Foundry.Proofs.Parameter.Respelling
import Foundry.Proofs.Path.Climbing
import Foundry.Proofs.Program.Configuration
import Foundry.Proofs.Program.Repetition
import Foundry.Proofs.Request.GeneratedNames
import Foundry.Proofs.Yaml.Paths
import Foundry.Proofs.Yaml.Repeated
