import ToneScore.Command.Plot
import ToneScore.Command.Render
import ToneScore.Main
import ToneScore.Wave.Chunk
import ToneScore.Proofs.Results
import ToneScore.Proofs.Binary64.Value
import ToneScore.Proofs.Binary64.Exact
import ToneScore.Proofs.Binary64.Zeros
import ToneScore.Proofs.Binary64.Order
import ToneScore.Proofs.Binary64.Sums
import ToneScore.Proofs.Binary64.Nearest
import ToneScore.Proofs.Binary64.Scaling
import ToneScore.Proofs.Binary64.Ties
import ToneScore.Proofs.Binary64.Rounded
import ToneScore.Proofs.Binary64.Monotone
import ToneScore.Proofs.Binary64.Operations
import ToneScore.Proofs.Binary64.Grids
import ToneScore.Proofs.Binary64.Halves
import ToneScore.Proofs.Text.Numerals
import ToneScore.Proofs.Text.Words
import ToneScore.Proofs.Text.Lines
import ToneScore.Proofs.Score.FirstFault
import ToneScore.Proofs.Score.LineEnds
import ToneScore.Proofs.Score.Fields
import ToneScore.Proofs.Pitch.Spelling
import ToneScore.Proofs.Pitch.Enharmonic
import ToneScore.Proofs.Pitch.Tuning
import ToneScore.Proofs.Pitch.Octaves
import ToneScore.Proofs.Pitch.Temperament
import ToneScore.Proofs.Pitch.Range
import ToneScore.Proofs.Decimal.Grammar
import ToneScore.Proofs.Score.Notes
import ToneScore.Proofs.Mixing
import ToneScore.Proofs.Reordering
import ToneScore.Proofs.Silence
import ToneScore.Proofs.Storage.Sink
import ToneScore.Proofs.Storage.Folder
import ToneScore.Proofs.Storage.Endless
import ToneScore.Proofs.Wave.Pieces
import ToneScore.Proofs.Wave.Words
import ToneScore.Proofs.Wave.Image
import ToneScore.Proofs.Wave.Header
import ToneScore.Proofs.Wave.Delivery
import ToneScore.Proofs.Wave.Agreement
import ToneScore.Proofs.Wave.Clamping
import ToneScore.Proofs.Wave.NearestCode
import ToneScore.Proofs.Wave.Codes
import ToneScore.Proofs.Wave.Chunks
import ToneScore.Proofs.Wave.Positions
import ToneScore.Proofs.Wave.Layout
import ToneScore.Proofs.Wave.RoundTrip
import ToneScore.Proofs.Wave.Truncation
import ToneScore.Proofs.Wave.Reencoding
import ToneScore.Proofs.Render.Outcome
import ToneScore.Proofs.Render.Messages
import ToneScore.Proofs.Render.Trace
import ToneScore.Proofs.Render.Clipping
import ToneScore.Proofs.Command.Acceptance
import ToneScore.Proofs.Command.AllOrNothing
import ToneScore.Proofs.Windows
import ToneScore.Proofs.Timeline.Positions
import ToneScore.Proofs.Timeline.Drift
import ToneScore.Proofs.Timeline.Start
import ToneScore.Proofs.Waveform.Offset
import ToneScore.Proofs.Waveform.Accuracy
import ToneScore.Proofs.Waveform.Range
