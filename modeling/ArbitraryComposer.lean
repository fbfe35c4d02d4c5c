import ArbitraryComposer.Base.Sha256
import ArbitraryComposer.Base.PortableInt128
import ArbitraryComposer.Pool.SlotPartition
import ArbitraryComposer.Pool.ChunkRouting
import ArbitraryComposer.Serialize.TileBlobCodec
import ArbitraryComposer.Runtime.ClockDamage
import ArbitraryComposer.Runtime.HostViewport
import ArbitraryComposer.Runtime.LiveBase
import ArbitraryComposer.Runtime.ExportMonitor
import ArbitraryComposer.Runtime.LoadStamps
import ArbitraryComposer.Runtime.CommitRelay
import ArbitraryComposer.Runtime.BindingGraph
import ArbitraryComposer.Runtime.BindingScopes
import ArbitraryComposer.Runtime.PumpPromises
import ArbitraryComposer.Runtime.TileDispatch
import ArbitraryComposer.Runtime.DeviceMonitor
import ArbitraryComposer.Model.Hamt.Shapes
import ArbitraryComposer.Model.SideRecords
import ArbitraryComposer.Model.LayerOrder
import ArbitraryComposer.Compositor.OperatorDamage
import ArbitraryComposer.Contract.RenderCompletion
import ArbitraryComposer.Runtime.ImageDelivery
import ArbitraryComposer.KindImageseq.FrameTimes
import ArbitraryComposer.Compositor.TileClear
import ArbitraryComposer.Compositor.PrefetchRings
import ArbitraryComposer.AudioEngine.BlockFills
import ArbitraryComposer.AudioEngine.PreparedRing
import ArbitraryComposer.Runtime.FilesystemAssetSink
import ArbitraryComposer.Runtime.FanOutEnds
import ArbitraryComposer.Model.ResumedIds
