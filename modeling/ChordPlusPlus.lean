import ChordPlusPlus.Api.Bounds
import ChordPlusPlus.Api.RoundTrip
import ChordPlusPlus.Api.EndToEnd
import ChordPlusPlus.Api.Responses
import ChordPlusPlus.Dht.Node
import ChordPlusPlus.Dht.ProofOfWork
import ChordPlusPlus.Ring.LookupEnds
import ChordPlusPlus.Ring.Churn
import ChordPlusPlus.Ring.FixFingers
import ChordPlusPlus.Ring.Halving
import ChordPlusPlus.Ring.Liveness
import ChordPlusPlus.Ring.Forget
import ChordPlusPlus.Storage.ReadYourWrites
import ChordPlusPlus.Storage.HashedItems
import ChordPlusPlus.Storage.LostUpdates
import ChordPlusPlus.Storage.Fallback
import ChordPlusPlus.Storage.PutFamilies
import ChordPlusPlus.Storage.Placement
import ChordPlusPlus.Storage.Expiry
import ChordPlusPlus.Storage.Growth
import ChordPlusPlus.Storage.Returns
import ChordPlusPlus.Storage.Alone
import ChordPlusPlus.Entry.NodeLists
import ChordPlusPlus.Entry.Repeat
import ChordPlusPlus.Entry.Termination
