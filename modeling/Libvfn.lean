import Libvfn.Foundation.Run
import Libvfn.Util.SkipList.Refine
import Libvfn.Util.SkipList.Ordered
import Libvfn.Nvme.Completion
import Libvfn.Nvme.Doorbell
import Libvfn.Nvme.Submission
import Libvfn.Nvme.Drain
import Libvfn.Nvme.DataPath
import Libvfn.Nvme.Handshake
import Libvfn.Nvme.RqStack
import Libvfn.Nvme.Translated
import Libvfn.Nvme.Prp.Capacity
import Libvfn.Nvme.Prp.Split
import Libvfn.Nvme.Prp.Frame
import Libvfn.Nvme.Reap
import Libvfn.Nvme.Trackers
import Libvfn.Nvme.Sync
import Libvfn.Nvme.QueueSize
import Libvfn.Nvme.Discard
import Libvfn.Nvme.QueueMemory
import Libvfn.Nvme.Slots
import Libvfn.Nvme.Secondary
import Libvfn.Nvme.Registry
import Libvfn.Nvme.Cmb
import Libvfn.Nvme.Crc
import Libvfn.Iommu.Vfio.Collision
import Libvfn.Iommu.Vfio.Lifetime
import Libvfn.Iommu.Vfio.Sharing
import Libvfn.Iommu.Vfio.Recycle
import Libvfn.Iommu.Vfio.AllOrNothing
import Libvfn.Iommu.Vfio.Bulk
import Libvfn.Iommu.Vfio.BestFit
import Libvfn.Iommu.Vfio.Linear
import Libvfn.Iommu.Vfio.Sentinel
import Libvfn.Iommu.Vfio.Bookkeeping
import Libvfn.Iommu.Vfio.Retry
import Libvfn.Iommu.Reach
import Libvfn.Iommu.SameIova
import Libvfn.Iommu.Vfio.Capabilities
import Libvfn.Iommu.Iommufd
import Libvfn.Pci.Sysfs
import Libvfn.Vfio.Pci
import Libvfn.Vfio.Open
