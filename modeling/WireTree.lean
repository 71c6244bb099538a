import WireTree.Main
import WireTree.Builder.CallLog
import WireTree.LittleEndian.Lemmas
import WireTree.Value.Equality
import WireTree.Proofs.DecodedValue
import WireTree.Proofs.Agreement
import WireTree.Proofs.RoundTrip
import WireTree.Proofs.Normalisation
import WireTree.Proofs.TreeKinds
import WireTree.Proofs.DataUris
import WireTree.Proofs.JsonForms
import WireTree.Proofs.JsonReading
import WireTree.Proofs.JsonRoundTrip
import WireTree.Proofs.WalkInduction
import WireTree.Proofs.ShortWindows
import WireTree.Proofs.Truncation
import WireTree.Proofs.Region
import WireTree.Proofs.ValueSequences
import WireTree.Proofs.WalkSteps
import WireTree.Proofs.UnknownTags
import WireTree.Proofs.NestingCeiling
import WireTree.Proofs.CallOrder
import WireTree.Proofs.CallLogs
import WireTree.Proofs.AppendLogs
import WireTree.Proofs.EncoderReuse
import WireTree.Proofs.CursorRuns
import WireTree.Proofs.ItemSequences
import WireTree.Proofs.ValueMembers
import WireTree.Proofs.TreeConversions
import WireTree.Proofs.JsonEncoding
import WireTree.Proofs.ToolAgreement
import WireTree.Proofs.AppendRuns
import WireTree.Proofs.EncodedSize
import WireTree.Proofs.ErrorPlaces
import WireTree.Proofs.DirectWalks
import WireTree.Proofs.RepeatedKeys
import WireTree.Proofs.WalkTraces
import WireTree.Proofs.WorkBounds
import WireTree.Proofs.StoredReals
import WireTree.Proofs.ValueEquality
import WireTree.Proofs.EqualValues
import WireTree.Proofs.PatchAddresses
import WireTree.Proofs.StartingDepth
import WireTree.Proofs.RoomBounds
import WireTree.Proofs.VarintCodec
import WireTree.Proofs.CanonicalUris
