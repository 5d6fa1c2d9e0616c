import Teeny.Files.Session
import Teeny.Main
import Teeny.Proofs.Grammar.Completion
import Teeny.Proofs.Grammar.Injectivity
import Teeny.Proofs.Generator.Lookahead
import Teeny.Proofs.Token.Spelling
import Teeny.Proofs.Files.Atomicity
import Teeny.Proofs.Files.Compilation
import Teeny.Proofs.Grammar.Layout
import Teeny.Proofs.Grammar.Concatenation
import Teeny.Proofs.Target.Trees
import Teeny.Proofs.Files.Numbers
import Teeny.Proofs.Command.Effects
import Teeny.Proofs.Files.Interleaving
import Teeny.Proofs.Token.Positions
import Teeny.Proofs.Grammar.Declarations
import Teeny.Proofs.Grammar.Labels
import Teeny.Proofs.Command.Messages
import Teeny.Proofs.Generator.Buffers
import Teeny.Proofs.Token.Documents
import Teeny.Proofs.Token.Tables
import Teeny.Proofs.Files.Replacement
import Teeny.Proofs.Command.Defaults
import Teeny.Proofs.Files.Idempotence
import Teeny.Proofs.Generator.Loops
