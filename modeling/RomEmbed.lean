import RomEmbed.Files.Change
import RomEmbed.Files.Listing
import RomEmbed.Main
import RomEmbed.Proofs.Output.Decoding
import RomEmbed.Proofs.Files.Growth
import RomEmbed.Proofs.Output.Writing
import RomEmbed.Proofs.Files.Replacing
import RomEmbed.Proofs.Embedding.Outcome
import RomEmbed.Proofs.Embedding.Fidelity
import RomEmbed.Proofs.Embedding.Runs
import RomEmbed.Proofs.Embedding.Sources
import RomEmbed.Proofs.Files.Renumbering
import RomEmbed.Proofs.Embedding.Commuting
import RomEmbed.Proofs.Embedding.Repeating
import RomEmbed.Proofs.Program.Endings
import RomEmbed.Proofs.Program.Diagnostics
import RomEmbed.Proofs.Output.Draining
import RomEmbed.Proofs.Output.Grammar
import RomEmbed.Proofs.CommandLine.Grammar
import RomEmbed.Proofs.CommandLine.Finality
import RomEmbed.Proofs.Output.Calls
import RomEmbed.Proofs.Embedding.Records
import RomEmbed.Proofs.Output.Structure
import RomEmbed.Proofs.Text.Scanning
import RomEmbed.Proofs.CommandLine.Options
import RomEmbed.Proofs.CommandLine.Escape
import RomEmbed.Proofs.CommandLine.Flags
import RomEmbed.Proofs.Program.Information
import RomEmbed.Proofs.Files.Components
import RomEmbed.Proofs.Embedding.Placement
import RomEmbed.Proofs.Embedding.Extent
import RomEmbed.Proofs.Output.Buffering
import RomEmbed.Proofs.Embedding.Messages
import RomEmbed.Proofs.Log.Deciding
import RomEmbed.Proofs.Log.Listing
import RomEmbed.Proofs.Program.Settings
