import Bunzip.Crc.Serial
import Bunzip.Main
import Bunzip.Stream.Encoding
import Bunzip.Proofs.Huffman.Lookahead
import Bunzip.Proofs.Block.Expansion
import Bunzip.Proofs.Block.Payload
import Bunzip.Proofs.Block.Readout
import Bunzip.Proofs.Block.Rotations
import Bunzip.Proofs.Block.Tokens
import Bunzip.Proofs.Block.Unsorting
import Bunzip.Proofs.Block.Delivery
import Bunzip.Proofs.Block.Data
import Bunzip.Proofs.Huffman.Kraft
import Bunzip.Proofs.Huffman.Prefixes
import Bunzip.Proofs.Huffman.Setup
import Bunzip.Proofs.Input.Failures
import Bunzip.Proofs.Input.Faithful
import Bunzip.Proofs.Scan.Layout
import Bunzip.WordReader
import Bunzip.Proofs.Scan.WordReader
import Bunzip.Proofs.Scan.Queue
import Bunzip.Proofs.Stream.CodeLengths
import Bunzip.Proofs.Stream.Unambiguous
import Bunzip.Proofs.Stream.Ending
import Bunzip.Proofs.Stream.Evaluation
import Bunzip.Proofs.Stream.Integrity
import Bunzip.Proofs.Stream.Layout
import Bunzip.Proofs.Stream.Progress
import Bunzip.Proofs.Stream.Reading
import Bunzip.Proofs.Stream.RoundTrip
import Bunzip.Proofs.Stream.Course
import Bunzip.Proofs.Stream.Coverage
import Bunzip.Proofs.Huffman.Ranges
import Bunzip.Huffman.Groups
import Bunzip.Proofs.Huffman.Groups
import Bunzip.Huffman.Limits
import Bunzip.Proofs.Huffman.Limits
import Bunzip.Proofs.Block.Ranges
import Bunzip.Proofs.Stream.Safety
import Bunzip.Proofs.Stream.Finality
import Bunzip.Proofs.Stream.Suspension
import Bunzip.Proofs.Stream.Finiteness
import Bunzip.Proofs.Stream.Sizes
import Bunzip.Proofs.Input.Requests
import Bunzip.Stream.Recycling
import Bunzip.Proofs.Stream.Recycling
import Bunzip.Proofs.Stream.Independence
import Bunzip.Proofs.Cli.Decoding
import Bunzip.Proofs.Cli.Paths
import Bunzip.Proofs.Cli.Files
import Bunzip.Proofs.Cli.Runs
import Bunzip.Proofs.Cli.Testing
import Bunzip.Proofs.Crc.Register
import Bunzip.Proofs.Crc.Bursts
import Bunzip.Proofs.Stream.Passage
import Bunzip.Proofs.Stream.LengthTables
import Bunzip.Proofs.Stream.RunningLength
import Bunzip.MoveToFront.Cells
import Bunzip.Proofs.MoveToFront.Cells
import Bunzip.UsedMap.Search
import Bunzip.Proofs.UsedMap.Search
import Bunzip.Proofs.Randomiser
import Bunzip.Proofs.Block.Masks
import Bunzip.Proofs.Cli.OutputName
